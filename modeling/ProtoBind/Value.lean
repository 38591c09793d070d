/-
Dynamic values: constants of a schema, contents of message fields, arguments
of calls.

Values are trees: a list, a mapping or a message holds its contents. A message
that is shared between several holders also says where it lives. An enum
member carries its class, its name and its number and behaves as the number.
-/
import ProtoBind.Text.Numeral
import ProtoBind.Text.Quoted

namespace ProtoBind

/-- A dynamic value. -/
inductive Value where
  | null
  | bool (b : Bool)
  | int (n : Int)
  | float (x : Binary64)
  | text (s : String)
  /-- An unquoted constant; it behaves as its text. -/
  | ident (s : String)
  | bytes (bs : List UInt8)
  | list (items : List Value)
  | dict (entries : List (Value × Value))
  | member (owner name : String) (number : Int)
  /-- A message of a type: what its attributes hold, and for each oneof group that is set the
  attribute and the value of its member. -/
  | message (home : Option Nat) (type : String) (attrs : List (String × Value))
      (choices : List (String × String × Value))
  deriving Repr, Inhabited

/-- Why an operation on values has no result. -/
inductive ValueFault
  /-- The text or number is not one that the operation accepts. -/
  | unacceptable
  /-- The number has no representation of the wanted kind. -/
  | overflow
  /-- The number is outside the range of a fixed-width format. -/
  | unrepresentable
  /-- The operation is not defined on values of this kind. -/
  | wrongKind
  /-- The value has no such part. -/
  | noAttribute
  /-- No entry has the wanted key. -/
  | missingKey
  /-- The bytes are not text in UTF-8. -/
  | undecodable
  /-- The text has characters outside the target set. -/
  | unencodable
  /-- A position lies behind the end. -/
  | outOfBounds
  /-- The result would take more room than there is. -/
  | tooLarge
  deriving DecidableEq, Repr, Inhabited

/-- The decimal digits of an integer behind its sign, however many they are. -/
def intText (n : Int) : String :=
  String.ofList (if n < 0 then '-' :: decimalDigits n.natAbs else decimalDigits n.natAbs)

/-- An integer of few enough digits to be read and written. -/
def isShort (n : Int) : Bool := (decimalDigits n.natAbs).length ≤ Text.maxIntegerDigits

/-- The text of an integer; one of too many digits has none. -/
def numeral (n : Int) : Except ValueFault String :=
  if isShort n then .ok (intText n) else .error .unacceptable

namespace Value

/-- The number a value behaves as, if it behaves as an integer. -/
def integer? : Value → Option Int
  | bool b => some (if b then 1 else 0)
  | int n => some n
  | member _ _ n => some n
  | _ => none

/-- The text a value behaves as. -/
def string? : Value → Option String
  | text s => some s
  | ident s => some s
  | _ => none

/-- Zero, the empty text, the empty container and the null value have no truth. -/
def truth : Value → Bool
  | null => false
  | bool b => b
  | int n => n != 0
  | float x => x.truth
  | text s => !s.isEmpty
  | ident s => !s.isEmpty
  | bytes bs => !bs.isEmpty
  | list items => !items.isEmpty
  | dict entries => !entries.isEmpty
  | member _ _ n => n != 0
  | message _ _ _ _ => true

/-- The integer a value converts to: integers as they are, doubles without their fraction,
texts as numerals. -/
def toInteger : Value → Except ValueFault Int
  | float x =>
    match x.truncate? with
    | some n => .ok n
    | none => .error (if x.isNaN then .unacceptable else .overflow)
  | text s | ident s => match Text.parseInt? s with
    | some n => .ok n
    | none => .error .unacceptable
  | bytes bs => match Text.parseInt? (String.ofList (bs.map fun b => Char.ofNat b.toNat)) with
    | some n => if bs.all (· < 128) then .ok n else .error .unacceptable
    | none => .error .unacceptable
  | v => match v.integer? with
    | some n => .ok n
    | none => .error .wrongKind

/-- The double a value converts to. -/
def toDouble : Value → Except ValueFault Binary64
  | float x => .ok x
  | text s | ident s => match Text.parseFloat? s with
    | some x => .ok x
    | none => .error .unacceptable
  | bytes bs => match Text.parseFloat? (String.ofList (bs.map fun b => Char.ofNat b.toNat)) with
    | some x => if bs.all (· < 128) then .ok x else .error .unacceptable
    | none => .error .unacceptable
  | v => match v.integer? with
    | some n => match Binary64.ofInt? n with
      | some x => .ok x
      | none => .error .overflow
    | none => .error .wrongKind

/-- The name of the kind of a value. -/
def kindName : Value → String
  | null => "NoneType"
  | bool _ => "bool"
  | int _ => "int"
  | float _ => "float"
  | text _ => "str"
  | ident _ => "Identifier"
  | bytes _ => "bytes"
  | list _ => "list"
  | dict _ => "dict"
  | member owner _ _ => owner
  | message _ type _ _ => type

/-- Shows a message, given its type, its attributes and its choices. -/
abbrev ShowMessage :=
  String → List (String × Value) → List (String × String × Value) → Except ValueFault String

mutual

/-- A value as it is shown inside others; `showMessage` shows the messages in it. -/
def showWith (showMessage : ShowMessage) : Value → Except ValueFault String
  | null => .ok "None"
  | bool b => .ok (if b then "True" else "False")
  | int n => numeral n
  | float x => .ok x.text
  | text s => .ok (Text.quoted s)
  | ident s => .ok (Text.quoted s)
  | bytes bs => .ok (Text.quotedBytes bs)
  | list items => do return "[" ++ Text.join ", " (← showAll showMessage items) ++ "]"
  | dict entries => do
    return "\x7b" ++ Text.join ", " (← showEntries showMessage entries) ++ "\x7d"
  | member owner name n => do return "<" ++ owner ++ "." ++ name ++ ": " ++ (← numeral n) ++ ">"
  | message _ type attrs choices => showMessage type attrs choices

def showAll (showMessage : ShowMessage) : List Value → Except ValueFault (List String)
  | [] => .ok []
  | v :: vs => do return (← showWith showMessage v) :: (← showAll showMessage vs)

def showEntries (showMessage : ShowMessage) : List (Value × Value) → Except ValueFault (List String)
  | [] => .ok []
  | (k, v) :: rest => do
    let entry := (← showWith showMessage k) ++ ": " ++ (← showWith showMessage v)
    return entry :: (← showEntries showMessage rest)

end

/-- A value without messages as it is shown inside others. -/
def shown (v : Value) : Except ValueFault String := v.showWith fun _ _ _ => .ok ""

/-- A value as text of its own: texts are themselves, an enum member is its number. -/
def plainTextWith (showMessage : ShowMessage) : Value → Except ValueFault String
  | text s => .ok s
  | ident s => .ok s
  | member _ _ n => numeral n
  | v => v.showWith showMessage

/-- A value without messages as text of its own. -/
def plainText (v : Value) : Except ValueFault String := v.plainTextWith fun _ _ _ => .ok ""

/-- Numbers are equal when their values are, whatever kind writes them. -/
def numberEqual : Value → Value → Bool
  | float x, float y => x.equal y
  | float x, v => match v.integer? with
    | some n => x.equalInt n
    | none => false
  | v, float y => match v.integer? with
    | some n => y.equalInt n
    | none => false
  | v, w => match v.integer?, w.integer? with
    | some m, some n => m == n
    | _, _ => false

/-- Two values are the same key of a mapping. -/
def sameKey : Value → Value → Bool
  | null, null => true
  | bytes a, bytes b => a == b
  | v, w => match v.string?, w.string? with
    | some a, some b => a == b
    | _, _ => numberEqual v w

/-- The values that a value runs through: the items of a list, the characters of a text, the
numbers of bytes, the keys of a mapping. -/
def items? : Value → Option (List Value)
  | list items => some items
  | dict entries => some (entries.map (·.1))
  | text s | ident s => some (s.toList.map fun c => text c.toString)
  | bytes bs => some (bs.map fun b => int b.toNat)
  | _ => none

mutual

/-- How deep containers and messages are nested in a value. -/
def depth : Value → Nat
  | list items => depthAll items + 1
  | dict entries => depthEntries entries + 1
  | message _ _ attrs choices => max (depthAttrs attrs) (depthChoices choices) + 1
  | _ => 0

def depthAll : List Value → Nat
  | [] => 0
  | v :: vs => max v.depth (depthAll vs)

def depthEntries : List (Value × Value) → Nat
  | [] => 0
  | (k, v) :: rest => max (max k.depth v.depth) (depthEntries rest)

def depthAttrs : List (String × Value) → Nat
  | [] => 0
  | (_, v) :: rest => max v.depth (depthAttrs rest)

def depthChoices : List (String × String × Value) → Nat
  | [] => 0
  | (_, _, v) :: rest => max v.depth (depthChoices rest)

end

/-- The value may be a key of a mapping. -/
def isKey : Value → Bool
  | list _ | dict _ | message _ _ _ _ => false
  | _ => true

end Value

/-! Mappings in the order in which their keys were first entered. -/

namespace Entries

variable {α β : Type}

/-- Puts a value at a key: at the place the key has, or at the end. -/
def put (same : α → α → Bool) (k : α) (v : β) : List (α × β) → List (α × β)
  | [] => [(k, v)]
  | (k', v') :: rest => if same k' k then (k', v) :: rest else (k', v') :: put same k v rest

def get? (same : α → α → Bool) (k : α) (entries : List (α × β)) : Option β :=
  (entries.find? fun e => same e.1 k).map (·.2)

/-- The mapping that a list of pairs denotes: a key keeps its first place and its last value. -/
def ofList (same : α → α → Bool) (pairs : List (α × β)) : List (α × β) :=
  pairs.foldl (fun acc p => put same p.1 p.2 acc) []

/-- Without a key. -/
def erase (same : α → α → Bool) (k : α) (entries : List (α × β)) : List (α × β) :=
  entries.filter fun e => !same e.1 k

end Entries

namespace Value

/-- Adds a value at the end of a list. -/
def append (v : Value) : Value → Except ValueFault Value
  | .list items => .ok (.list (items ++ [v]))
  | _ => .error .noAttribute

/-- Puts a value at a key of a mapping or at an index of a list; negative indexes count from
the end. -/
def putAt (k v : Value) : Value → Except ValueFault Value
  | .dict entries =>
    if k.isKey then .ok (.dict (Entries.put sameKey k v entries)) else .error .wrongKind
  | .list items =>
    match k.integer? with
    | some i =>
      let i := if i < 0 then i + items.length else i
      if 0 ≤ i ∧ i < items.length then .ok (.list (items.set i.toNat v)) else .error .outOfBounds
    | none => .error .wrongKind
  | _ => .error .wrongKind

end Value
end ProtoBind
