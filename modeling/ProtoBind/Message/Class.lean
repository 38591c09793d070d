/-
The classes of a schema at work: what a message class knows of its fields, an
enum class of its members and a client class of its methods.

A message class takes its knowledge from two sides. What it writes follows the
descriptors of the reflection tree; what it reads and creates follows the
fields of the schema graph, and the classes that it reads and creates with are
those that the expressions in its methods stand for.
-/
import ProtoBind.Codegen.Program
import ProtoBind.Reflection.Tree

namespace ProtoBind.Message

open Schema (Graph Node Leaf Arity Reference)
open Codegen (Module Program Referent)

/-! ## Enums -/

/-- The class of an enum. -/
structure EnumClass where
  fullName : String
  name : String
  /-- All names with their numbers, synonyms included. -/
  members : List (String × Int)
  deriving Repr, Inhabited

namespace EnumClass

/-- The member with a number: the first of the names that have it. -/
def ofNumber? (e : EnumClass) (n : Int) : Option Value :=
  (e.members.find? (·.2 == n)).map fun m => .member e.name m.1 n

/-- The member with a name; a synonym is the member it stands for. -/
def ofName? (e : EnumClass) (name : String) : Option Value :=
  (e.members.lookup name).bind e.ofNumber?

/-- The member for a number in any form; any other value is left as it is. -/
def ofValue (e : EnumClass) (v : Value) : Value :=
  match e.members.find? fun m => v.numberEqual (.int m.2) with
  | some m => .member e.name m.1 m.2
  | none => v

/-- The member for a value, as `ofValue` has it; a class without members takes no value. -/
def take (e : EnumClass) (v : Value) : Except ValueFault Value :=
  if e.members.isEmpty then .error .wrongKind else .ok (e.ofValue v)

/-- The member for a member, a number or a name. -/
def convert (e : EnumClass) (v : Value) : Except ValueFault Value :=
  match v with
  | .member _ _ _ => .ok v
  | .text s | .ident s =>
    match e.ofName? (Naming.enumMemberName s) with
    | some m => .ok m
    | none => .error .missingKey
  | v => do e.take (.int (← v.toInteger))

end EnumClass

/-! ## Messages -/

/-- How an attribute of a class is served when it is not simply kept. -/
inductive Descriptor
  /-- A member of a oneof group. -/
  | member (name group : String)
  /-- A oneof group with the attributes of its members. -/
  | group (name : String) (members : List String)
  deriving DecidableEq, Repr, Inhabited

/-- What a field holds, one element at a time. Enums and messages are given by full name. -/
inductive Element
  | scalar (kind : Scalar)
  | enum (type : String)
  | message (type : String)
  deriving DecidableEq, Repr, Inhabited

/-- Several elements may share one length-delimited run. -/
def Element.isPackable : Element → Bool
  | scalar k => k.isPackable
  | enum _ => true
  | message _ => false

/-- What reading and creating know of a field. -/
structure FieldCodec where
  /-- The attribute, which is also the key among the properties. -/
  attr : String
  /-- The attribute that is set. -/
  target : String
  number : Int
  /-- What the field is declared to hold. -/
  element : Element
  arity : Arity
  /-- What is read and what is created for an element; none where the expression for the class stands for nothing of
  the kind. -/
  read : Option Element
  made : Option Element
  deriving DecidableEq, Repr, Inhabited

/-- The class of a message. -/
structure MessageClass where
  fullName : String
  name : String
  fields : List Reflection.Field
  codecs : List FieldCodec
  descriptors : List (String × Descriptor)
  deriving Repr, Inhabited

namespace MessageClass

def descriptor? (c : MessageClass) (attr : String) : Option Descriptor := c.descriptors.lookup attr

/-- The field with an attribute; of several the last. -/
def byAttr? (c : MessageClass) (attr : String) : Option Reflection.Field :=
  c.fields.reverse.find? (·.attr == attr)

end MessageClass

/-- The name that an attribute has in the code of a class: with two underscores at its front
and not at its end it is private to the class. -/
def privateName (owner attr : String) : String :=
  let owner := owner.toList.dropWhile (· == '_')
  if attr.startsWith "__" && !attr.endsWith "__" && !owner.isEmpty then
    "_" ++ String.ofList owner ++ attr
  else attr

/-! ## Clients -/

/-- A method of a client class. The messages are given by full name; a method on anything else
has none. -/
structure ClientMethod where
  /-- The name in the client class. -/
  name : String
  path : String
  request : Option String
  response : Option String
  requestStream : Bool
  responseStream : Bool
  deriving DecidableEq, Repr, Inhabited

structure ClientClass where
  fullName : String
  methods : List ClientMethod
  deriving Repr, Inhabited

/-- The method with the name that a declared name gets; of several the last. -/
def ClientClass.method? (c : ClientClass) (declared : String) : Option ClientMethod :=
  c.methods.reverse.find? (·.name == Naming.methodName (Codegen.snakeCase declared))

/-! ## The library -/

/-- All classes of a schema. -/
structure Library where
  tree : Reflection.Tree
  messages : List MessageClass
  enums : List EnumClass
  clients : List ClientClass
  deriving Repr, Inhabited

namespace Library

def message? (lib : Library) (fullName : String) : Option MessageClass :=
  lib.messages.find? (·.fullName == fullName)

def enum? (lib : Library) (fullName : String) : Option EnumClass :=
  lib.enums.find? (·.fullName == fullName)

def client? (lib : Library) (fullName : String) : Option ClientClass :=
  lib.clients.find? (·.fullName == fullName)

/-- What a described field holds, if its type was found. -/
def elementOf? (lib : Library) (f : Reflection.Field) : Option Element :=
  match f.resolved.bind lib.tree.object? with
  | some { fullName, body := .message _ _, .. } => some (.message fullName)
  | some { fullName, body := .enum _, .. } => some (.enum fullName)
  | _ => f.scalar?.map .scalar

end Library

/-! ## Classes of a graph -/

/-- A name with one underscore at both ends, which an enum class keeps for itself. -/
def isKept (name : String) : Bool :=
  match name.toList, name.toList.reverse with
  | '_' :: a :: _ :: _, '_' :: b :: _ => a != '_' && b != '_'
  | _, _ => false

/-- A name that is private to the class `owner` of an enum, which is no member. -/
def isHidden (owner name : String) : Bool :=
  let front := '_' :: owner.toList ++ ['_', '_']
  front.isPrefixOf name.toList && decide (front.length < name.length) && !"__".toList.isSuffixOf name.toList

/-- The members of an enum class with one name more; no name may be given twice. -/
def addMember (owner : String) (members : List (String × Int)) (v : Schema.EnumValue) :
    Except ValueFault (List (String × Int)) :=
  let name := privateName owner (Naming.enumMemberName v.name)
  if isHidden owner name then .ok members
  else if isKept name then .error .unacceptable
  else if members.any (·.1 == name) then .error .wrongKind
  else .ok (members ++ [(name, v.number)])

/-- The class of an enum, unless its names cannot be members together. -/
def enumClass (n : Node) : Except ValueFault EnumClass := do
  let members ← n.enumValues.foldlM (addMember (Codegen.className n)) []
  if members.any (·.1 == "mro") then throw .unacceptable
  return { fullName := n.fullName, name := Codegen.className n, members := members }

/-- The class of an enum has members. -/
def hasMembers (n : Node) : Bool := (enumClass n).toOption.any (!·.members.isEmpty)

/-- The element that a leaf denotes in a graph. -/
def elementOfLeaf? (g : Graph) : Leaf → Option Element
  | .scalar k => some (.scalar k)
  | .reference r => do
    let n ← r.target.bind g.node?
    return if n.kind = .enum then .enum n.fullName else .message n.fullName

/-- The fields of a message with their nodes. -/
def fieldsOf (g : Graph) (n : Node) : List (Node × Schema.Field) :=
  (g.childrenOf n).filterMap fun c => c.field?.map fun f => (c, f)

/-- What is read for an element where the expression for its class stands for `r`, if that can be told. An enum without
members takes no number. -/
def readAs (p : Program) (target : Node) (isMap : Bool) (r : Referent) : Option (Option Element) :=
  let named (i : Nat) : Option String := (p.graph.node? i).map (·.fullName)
  if target.kind = .enum then
    match r with
    | .enum i => (p.graph.node? i).map fun n => if hasMembers n then some (.enum n.fullName) else none
    | .message _ | .object _ | .shape | .other => some none
    | .module _ | .client _ => none
  else
    match r with
    | .message i => (named i).map fun type => some (.message type)
    | .object i => if isMap then none else (named i).map fun type => some (.message type)
    | .shape => if isMap then none else some none
    | .other => some none
    | .enum _ | .module _ | .client _ => none

/-- What is created for an element where the expression for its class stands for `r`, if that can be told. -/
def madeAs (p : Program) (target : Node) (r : Referent) : Option (Option Element) :=
  let named (i : Nat) : Option String := (p.graph.node? i).map (·.fullName)
  if target.kind = .enum then
    match r with
    | .enum i => (named i).map fun type => some (.enum type)
    | _ => none
  else
    match r with
    | .message i | .object i => (named i).map fun type => some (.message type)
    | .shape | .other => some none
    | .enum _ | .module _ | .client _ => none

/-- What is read and what is created for a field in the methods of a class, if its expressions can be told. -/
def partsOf? (p : Program) (m : Module) (n : Node) (t : Schema.ValueType) (element : Element) :
    Option (Option Element × Option Element) :=
  match t.leaf with
  | .scalar _ => some (some element, some element)
  | .reference r => do
    let target ← r.target.bind p.graph.node?
    let read ← readAs p target t.isMap (← p.resolve m (Codegen.decodeLocals p.graph n) target)
    let made ← madeAs p target (← p.resolve m (Codegen.createLocals n t) target)
    return (read, made)

/-- The codec of a field in the methods of a class. -/
def codecOf? (p : Program) (m : Module) (n c : Node) (f : Schema.Field) : Option FieldCodec := do
  let element ← elementOfLeaf? p.graph f.type.leaf
  let arity ← f.type.arity?
  let (read, made) ← partsOf? p m n f.type element
  let attr := Naming.attributeName c.name
  return ⟨attr, privateName (Codegen.className n) attr, f.tag, element, arity, read, made⟩

/-- The descriptors of a group and of its members; a group without members has none. -/
def groupDescriptors (owner : String) (fields : List (Node × Schema.Field))
    (group : Schema.OneofGroup) : List (String × Descriptor) :=
  let members := fields.filterMap fun (c, f) =>
    if f.oneof = some group.name then some (Naming.attributeName c.name) else none
  let attr := Naming.attributeName group.name
  if members.isEmpty then []
  else
    members.map (fun m => (privateName owner m, .member (privateName owner m) attr)) ++
      [(privateName owner attr, .group (privateName owner attr) members)]

/-- The descriptors in the class of a message. A nested class takes the name of a descriptor before it. -/
def descriptorsOf (g : Graph) (n : Node) : List (String × Descriptor) :=
  (Entries.ofList (· == ·) (n.oneofs.flatMap (groupDescriptors (Codegen.className n) (fieldsOf g n)))).filter
    fun d => !((Codegen.nestedNames g n).map (·.1)).contains d.1

/-- The class of a message in its module, if what its methods refer to can be told. -/
def messageClass (p : Program) (t : Reflection.Tree) (m : Module) (n : Node) : Option MessageClass := do
  return {
    fullName := n.fullName
    name := Codegen.className n
    fields := ((t.index.lookup n.fullName).map (·.fields)).getD []
    codecs := ← (fieldsOf p.graph n).mapM fun (c, f) => codecOf? p m n c f
    descriptors := descriptorsOf p.graph n }

/-- The message that the expression for a reference stands for: none within what can be told if it stands for none. -/
def messageOf? (p : Program) (m : Module) (own : Codegen.Locals) (r : Reference) : Option (Option String) := do
  let target ← r.target.bind p.graph.node?
  if target.kind ≠ .message then return none
  match ← p.resolve m own target with
  | .message i => return some (← p.graph.node? i).fullName
  | .shape | .other => return none
  | _ => failure

def clientMethod (p : Program) (m : Module) (c : Node) (method : Schema.Method) : Option ClientMethod := do
  return {
    name := Naming.methodName (Codegen.snakeCase c.name)
    path := c.path
    request := ← messageOf? p m (Codegen.callLocals method.requestStream) method.request
    response := ← messageOf? p m (Codegen.callLocals false) method.response
    requestStream := method.requestStream
    responseStream := method.responseStream }

/-- The methods of a service with their nodes. -/
def methodsOf (g : Graph) (n : Node) : List (Node × Schema.Method) :=
  (g.childrenOf n).filterMap fun c => c.method?.map fun m => (c, m)

def clientClass (p : Program) (m : Module) (n : Node) : Option ClientClass := do
  return {
    fullName := n.fullName
    methods := ← (methodsOf p.graph n).mapM fun (c, method) => clientMethod p m c method }

end ProtoBind.Message
