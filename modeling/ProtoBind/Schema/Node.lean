/-
Nodes of a schema graph: packages, messages, enums, services, fields and
methods, with the types of field values.
-/
import ProtoBind.Scalar
import ProtoBind.Source.Decl

namespace ProtoBind.Schema

/-- A type referred to by name, and the node it was resolved to. -/
structure Reference where
  name : String
  target : Option Nat := none
  deriving DecidableEq, Repr, Inhabited

/-- A single value. -/
inductive Leaf
  | scalar (kind : Scalar)
  | reference (ref : Reference)
  deriving DecidableEq, Repr, Inhabited

/-- The type of a field's value. The key of a map is kept as it was written. -/
inductive ValueType
  | single (leaf : Leaf)
  | repeated (leaf : Leaf)
  | map (key : String) (leaf : Leaf)
  deriving DecidableEq, Repr, Inhabited

namespace Leaf

/-- A scalar kind if the name is one, else a reference. -/
def ofName (name : String) : Leaf :=
  match Scalar.ofName? name with
  | some s => scalar s
  | none => reference ⟨name, none⟩

/-- The name as it was written. -/
def name : Leaf → String
  | scalar s => s.name
  | reference r => r.name

def target : Leaf → Option Nat
  | scalar _ => none
  | reference r => r.target

def shown : Leaf → String
  | scalar s => "ValueType(scalar " ++ s.name ++ ")"
  | reference r => "ValueType(reference " ++ r.name ++ ")"

end Leaf

/-- A reference as it is shown. -/
def Reference.shown (r : Reference) : String := (Leaf.reference r).shown

namespace ValueType

def leaf : ValueType → Leaf
  | single l | repeated l | map _ l => l

/-- The same shape around another leaf. -/
def withLeaf (l : Leaf) : ValueType → ValueType
  | single _ => single l
  | repeated _ => repeated l
  | map key _ => map key l

/-- The key of a map as it was written; other types have none. -/
def key : ValueType → String
  | map key _ => key
  | _ => ""

def isRepeated : ValueType → Bool
  | repeated _ => true
  | _ => false

def isMap : ValueType → Bool
  | map _ _ => true
  | _ => false

def shown : ValueType → String
  | single l => l.shown
  | repeated l => "ValueType(repeated " ++ l.shown ++ ")"
  | map key l => "ValueType(map<" ++ key ++ ", " ++ l.shown ++ ">)"

end ValueType

/-- How many values a field holds; the entries of a map have scalar keys. -/
inductive Arity
  | single
  | repeated
  | map (key : Scalar)
  deriving DecidableEq, Repr, Inhabited

/-- The arity of a type, unless it is a map whose key is not scalar. -/
def ValueType.arity? : ValueType → Option Arity
  | single _ => some .single
  | repeated _ => some .repeated
  | map key _ => (Scalar.ofName? key).map .map

/-- A group of fields of which at most one is set. -/
structure OneofGroup where
  name : String
  doc : Option String
  fields : List String
  deriving DecidableEq, Repr, Inhabited

structure EnumValue where
  name : String
  number : Int
  doc : Option String
  deriving DecidableEq, Repr, Inhabited

structure Field where
  tag : Int
  type : ValueType
  oneof : Option String := none
  label : Option Source.Label := none
  explicitDefault : Option Value := none
  packed : Option Bool := none
  extendee : Option String := none
  extendeeTarget : Option Nat := none
  /-- The value of a fresh message, once the graph is resolved. -/
  default : Value := .null
  deriving Repr, Inhabited

structure Method where
  request : Reference
  response : Reference
  requestStream : Bool := false
  responseStream : Bool := false
  deriving DecidableEq, Repr, Inhabited

inductive Kind
  | package | message | enum | service | field | method
  deriving DecidableEq, Repr, Inhabited

namespace Kind

def all : List Kind := [package, message, enum, service, field, method]

/-- The name of a kind in messages. -/
def name : Kind → String
  | package => "namespace"
  | message => "type"
  | enum => "enum"
  | service => "service"
  | field => "field"
  | method => "method"

def ofName? (s : String) : Option Kind := all.find? (·.name == s)

/-- The name of a kind where nodes are shown. -/
def shownName : Kind → String
  | package => "NamespaceNode"
  | message => "TypeNode"
  | enum => "EnumNode"
  | service => "ServiceNode"
  | field => "FieldNode"
  | method => "MethodNode"

end Kind

/-- What a node declares. -/
inductive Body
  | package
  | message (dialect : String) (oneofs : List OneofGroup)
  | enum (values : List EnumValue)
  | service
  | field (f : Field)
  | method (m : Method)
  deriving Repr, Inhabited

def Body.kind : Body → Kind
  | package => .package
  | message _ _ => .message
  | enum _ => .enum
  | service => .service
  | field _ => .field
  | method _ => .method

/-- A declaration before it has a place in a graph. -/
structure Entry where
  name : String
  file : Option String := none
  doc : Option String := none
  line : Option Nat := none
  body : Body
  deriving Repr, Inhabited

/-- A declaration with its place in a graph. -/
structure Node extends Entry where
  index : Nat
  parent : Option Nat
  children : List Nat
  fullName : String
  deriving Repr, Inhabited

namespace Node

def kind (n : Node) : Kind := n.body.kind

/-- The full name with a leading dot. -/
def path (n : Node) : String := "." ++ n.fullName

def field? (n : Node) : Option Field :=
  match n.body with
  | .field f => some f
  | _ => none

def method? (n : Node) : Option Method :=
  match n.body with
  | .method m => some m
  | _ => none

def oneofs (n : Node) : List OneofGroup :=
  match n.body with
  | .message _ groups => groups
  | _ => []

def enumValues (n : Node) : List EnumValue :=
  match n.body with
  | .enum values => values
  | _ => []

/-- The number of the first enum value with a name. -/
def numberOf? (n : Node) (name : String) : Option Int :=
  (n.enumValues.find? (·.name == name)).map (·.number)

/-- The node as it is shown. -/
def shown (n : Node) : String :=
  n.kind.shownName ++ "(" ++ Text.quoted n.fullName ++ ", file=" ++
    (match n.file with
      | some f => Text.quoted f
      | none => "None") ++ ")"

end Node

def OneofGroup.shown (g : OneofGroup) : String :=
  "OneofGroup(" ++ Text.quoted g.name ++ ", [" ++
    Text.join ", " (g.fields.map Text.quoted) ++ "])"

def EnumValue.shown (v : EnumValue) : Except ValueFault String := do
  return "EnumValue(" ++ Text.quoted v.name ++ ", " ++ (← numeral v.number) ++ ")"

/-- The parts of a node, each as it is shown. -/
def Node.shownParts (n : Node) : Except ValueFault (List String) :=
  match n.body with
  | .message _ groups => .ok (groups.map OneofGroup.shown)
  | .enum values => values.mapM EnumValue.shown
  | .field f => .ok [f.type.shown]
  | _ => .ok []

end ProtoBind.Schema
