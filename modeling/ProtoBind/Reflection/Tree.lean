/-
The tree of descriptors that a reflection document describes.

Objects are kept in one index by full name, in the order in which they were
first met; an object met later under the same full name takes the place of
the earlier one. Types that fields and methods mention are resolved once the
whole document is read.
-/
import ProtoBind.Json.Basic
import ProtoBind.Naming
import ProtoBind.Schema.Default

namespace ProtoBind.Reflection

/-- What a mentioned type was resolved to. -/
inductive Target
  | root
  | object (fullName : String)
  deriving DecidableEq, Repr, Inhabited

def Target.path : Target → String
  | root => "."
  | object fullName => "." ++ fullName

/-- A field of a message, or an extension. -/
structure Field where
  name : String
  fullName : String
  id : Value
  type : String
  /-- Why the type cannot be looked up, if it is not a name. -/
  typeFault : Option ValueFault
  repeated : Bool
  /-- The key kind of a map, null for all other fields. -/
  keyType : Value
  extend : Value
  packed : Value
  attr : String
  oneof : Option String
  resolved : Option Target
  hasDefault : Bool
  default : Value
  deriving Repr, Inhabited

namespace Field

def isMap (f : Field) : Bool :=
  match f.keyType with
  | .null => false
  | _ => true

def scalar? (f : Field) : Option Scalar := Scalar.ofName? f.type

def oneofAttr (f : Field) : Option String := f.oneof.map Naming.attributeName

/-- What a fresh message holds in the field. -/
def newDefault (f : Field) : Value :=
  if f.isMap then .dict [] else if f.repeated then .list [] else f.default

end Field

structure Method where
  name : String
  fullName : String
  requestType : Json
  responseType : Json
  requestStream : Json
  responseStream : Json
  resolvedRequest : Option Target
  resolvedResponse : Option Target
  deriving Repr, Inhabited

/-- What an object of the tree describes. -/
inductive ObjectBody
  | package
  | message (fields : List Field) (oneofs : List (String × List Value))
  | enum (values : List (Value × Value))
  | service (methods : List Method)
  | extension (field : Field)
  deriving Repr, Inhabited

structure Object where
  name : String
  fullName : String
  /-- The full name of the object around it; the root has the empty one. -/
  parent : String
  /-- The names of the objects inside, for those that can have any. -/
  nested : List String
  body : ObjectBody
  deriving Repr, Inhabited

namespace ObjectBody

/-- The name of the object's class. -/
def className : ObjectBody → String
  | package => "Namespace"
  | message _ _ => "Type"
  | enum _ => "Enum"
  | service _ => "Service"
  | extension _ => "Field"

end ObjectBody

namespace Object

def path (o : Object) : String := "." ++ o.fullName

def shown (o : Object) : String := o.body.className ++ "(" ++ Text.quoted o.path ++ ")"

def fields (o : Object) : List Field :=
  match o.body with
  | .message fs _ => fs
  | _ => []

/-- The fields of a message by number; of two fields with one number the later is found. -/
def byId (o : Object) : List (Value × String) :=
  Entries.ofList Value.sameKey (o.fields.map fun f => (f.id, f.name))

/-- The fields of a message by attribute. -/
def byAttr (o : Object) : List (String × String) :=
  Entries.ofList (· == ·) (o.fields.map fun f => (f.attr, f.name))

/-- The numbers of an enum, each with the first name that has it. -/
def namesByNumber (o : Object) : List (Value × Value) :=
  match o.body with
  | .enum values => values.foldl (fun acc (name, number) =>
      if (Entries.get? Value.sameKey number acc).isSome then acc else acc ++ [(number, name)]) []
  | _ => []

end Object

/-- The number of an enum's first value, zero if it has none. -/
def firstValue (values : List (Value × Value)) : Value := (values.head?.map (·.2)).getD (.int 0)

/-- The whole tree: the names at the top and the index of all objects. -/
structure Tree where
  nested : List String
  index : List (String × Object)
  deriving Repr, Inhabited

/-! ## Reading -/

abbrev Reading := Except ValueFault

/-- The entries of an object at a key, none if the key is absent. -/
def entriesAt (j : Json) (key : String) : Reading (List (String × Json)) :=
  match j with
  | .object entries =>
    match entries.lookup key with
    | none => .ok []
    | some (.object inner) => .ok inner
    | some _ => .error .noAttribute
  | _ => .error .noAttribute

/-- The part of a document at a key that has to be there. -/
def required (j : Json) (key : String) : Reading Json :=
  match j with
  | .object entries =>
    match entries.lookup key with
    | some v => .ok v
    | none => .error .missingKey
  | _ => .error .wrongKind

/-- The value can be a key. -/
def hashable (j : Json) : Reading Unit :=
  match j with
  | .array _ | .object _ => .error .wrongKind
  | _ => .ok ()

/-- The full name of an object inside another. -/
def innerName (parent name : String) : String := if parent.isEmpty then name else parent ++ "." ++ name

/-- A text as bytes with the same codes. -/
def latin1 (s : String) : Reading (List UInt8) :=
  if s.toList.all (·.toNat < 0x100) then .ok (s.toList.map fun c => UInt8.ofNat c.toNat)
  else .error .unencodable

/-- The default that a descriptor gives for a type. -/
def givenDefault (type : String) (j : Json) : Reading Value :=
  match j with
  | .string s => if type == Scalar.bytes.name then (latin1 s).map .bytes else .ok (.text s)
  | j => .ok j.toValue

/-- The name of a type, or why it has none. -/
def typeName : Json → String × Option ValueFault
  | .string s => (s, none)
  | .array _ | .object _ => ("", some .wrongKind)
  | _ => ("", some .noAttribute)

/-- The default of a type: the one that is given, or else its own. -/
def readDefault (type : Json) : Option Json → Reading Value
  | some d => givenDefault (typeName type).1 d
  | none =>
    match type, Scalar.ofName? (typeName type).1 with
    | .array _, _ | .object _, _ => .error .wrongKind
    | _, some s => .ok s.zero
    | _, none => .ok .null

def readField (parent name : String) (j : Json) : Reading Field := do
  let id ← required j "id"
  let type ← required j "type"
  let given := j.get? "default"
  let default ← readDefault type given
  return {
    name := name
    fullName := innerName parent name
    id := id.toValue
    type := (typeName type).1
    typeFault := (typeName type).2
    repeated := match j.get? "rule" with
      | some (.string s) => s == "repeated"
      | _ => false
    keyType := ((j.get? "keyType").getD .null).toValue
    extend := ((j.get? "extend").getD .null).toValue
    packed := ((j.get? "packed").getD (.bool false)).toValue
    attr := Naming.attributeName name
    oneof := none
    resolved := none
    hasDefault := given.isSome
    default := default }

/-- The items of a document that can be run through. -/
def iterate : Json → Reading (List Json)
  | .array items => .ok items
  | .string s => .ok (s.toList.map fun c => .string c.toString)
  | .object entries => .ok (entries.map fun e => .string e.1)
  | _ => .error .wrongKind

/-- Puts a field into a group; later groups win. -/
def joinGroup (group : String) (member : Json) (fields : List Field) : Reading (List Field) := do
  hashable member
  match member with
  | .string name =>
    if fields.any (·.name == name) then
      return fields.map fun f => if f.name == name then { f with oneof := some group } else f
    else .error .missingKey
  | _ => .error .missingKey

def readOneofs : List (String × Json) → List Field → Reading (List Field × List (String × List Value))
  | [], fields => .ok (fields, [])
  | (group, j) :: rest, fields => do
    let members ← iterate (← required j "oneof")
    let fields ← members.foldlM (fun fs m => joinGroup group m fs) fields
    let (fields, groups) ← readOneofs rest fields
    return (fields, (group, members.map Json.toValue) :: groups)

/-- One pair of a mapping given as a list. -/
def readPair (j : Json) : Reading (Value × Json) := do
  match ← iterate j with
  | [k, v] =>
    hashable k
    return (k.toValue, v)
  | _ => .error .unacceptable

/-- A mapping given as an object or as a list of pairs. -/
def readMapping (j : Json) : Reading (List (Value × Json)) :=
  match j with
  | .object entries => .ok (entries.map fun (k, v) => (.text k, v))
  | j => do return Entries.ofList Value.sameKey (← (← iterate j).mapM readPair)

def readEnum (j : Json) : Reading ObjectBody := do
  let values ← readMapping (← required j "values")
  for (_, v) in values do
    hashable v
  return .enum (values.map fun (n, v) => (n, v.toValue))

def readMethod (parent name : String) (j : Json) : Reading Method := do
  let request ← required j "requestType"
  let response ← required j "responseType"
  return {
    name := name
    fullName := innerName parent name
    requestType := request
    responseType := response
    requestStream := (j.get? "requestStream").getD (.bool false)
    responseStream := (j.get? "responseStream").getD (.bool false)
    resolvedRequest := none
    resolvedResponse := none }

def readMessage (fullName : String) (j : Json) : Reading ObjectBody := do
  let fields ← (← entriesAt j "fields").mapM fun (n, d) => readField fullName n d
  for f in fields do
    match f.id with
    | .list _ | .dict _ => throw .wrongKind
    | _ => pure ()
  let (fields, groups) ← readOneofs (← entriesAt j "oneofs") fields
  return .message fields groups

/-- The key occurs in a descriptor: as a key, as an item, or as a part of a text. -/
def mentions (j : Json) (key : String) : Reading Bool :=
  match j with
  | .object entries => .ok (entries.lookup key).isSome
  | .array items => .ok (items.any fun
    | .string s => s == key
    | _ => false)
  | .string s => .ok ((s.splitOn key).length != 1)
  | _ => .error .wrongKind

/-- The body of a descriptor, told apart by the keys it has. -/
def readBody (parent fullName name : String) (j : Json) : Reading ObjectBody := do
  if ← mentions j "fields" then readMessage fullName j
  else if ← mentions j "values" then readEnum j
  else if ← mentions j "methods" then
    return .service (← (← entriesAt j "methods").mapM fun (n, d) => readMethod fullName n d)
  else if ← mentions j "extend" then return .extension (← readField parent name j)
  else return .package

/-- Reads the objects inside a parent into the index. -/
def readNested (parent : String) :
    (fuel : Nat) → List (String × Json) → List (String × Object) → Reading (List (String × Object))
  | _, [], index => .ok index
  | 0, _, index => .ok index
  | fuel + 1, (name, j) :: rest, index => do
    let fullName := innerName parent name
    let body ← readBody parent fullName name j
    let inner ← match body with
      | .enum _ | .extension _ => pure []
      | _ => entriesAt j "nested"
    let object : Object := ⟨name, fullName, parent, inner.map (·.1), body⟩
    let index := Entries.put (· == ·) fullName object index
    let index ← readNested fullName fuel inner index
    readNested parent fuel rest index

/-! ## Resolution -/

namespace Tree

/-- The object at a full name, with or without a leading dot. -/
def lookup (t : Tree) (path : String) : Option Target :=
  if path == "" || path == "." then some .root
  else
    let name := match path.toList with
      | '.' :: rest => String.ofList rest
      | _ => path
    (t.index.lookup name).map fun _ => .object name

def object? (t : Tree) : Target → Option Object
  | .root => none
  | .object fullName => t.index.lookup fullName

def resolveField (t : Tree) (f : Field) : Reading Field :=
  match f.typeFault with
  | some e => .error e
  | none =>
    if f.scalar?.isSome then .ok f
    else
      let resolved := t.lookup f.type
      let default := match resolved.bind t.object? with
        | some { body := .enum values, .. } => if f.hasDefault then f.default else firstValue values
        | _ => f.default
      .ok { f with resolved := resolved, default := default }

def resolveType (t : Tree) : Json → Reading (Option Target)
  | .string s => .ok (t.lookup s)
  | _ => .error .noAttribute

def resolveMethod (t : Tree) (m : Method) : Reading Method := do
  return { m with
    resolvedRequest := ← t.resolveType m.requestType
    resolvedResponse := ← t.resolveType m.responseType }

def resolveObject (t : Tree) (o : Object) : Reading Object :=
  match o.body with
  | .message fields oneofs => do
    return { o with body := .message (← fields.mapM t.resolveField) oneofs }
  | .extension field => do return { o with body := .extension (← t.resolveField field) }
  | .service methods => do return { o with body := .service (← methods.mapM t.resolveMethod) }
  | _ => .ok o

end Tree

mutual

/-- More steps than reading a document takes. -/
def sizeOfJson : Json → Nat
  | .array items => sizeOfAll items + 1
  | .object entries => sizeOfEntries entries + 1
  | _ => 1

def sizeOfAll : List Json → Nat
  | [] => 0
  | j :: rest => sizeOfJson j + sizeOfAll rest + 1

def sizeOfEntries : List (String × Json) → Nat
  | [] => 0
  | (_, j) :: rest => sizeOfJson j + sizeOfEntries rest + 1

end

/-- The tree of a document. -/
def Tree.ofJson (j : Json) : Reading Tree := do
  let nested ← entriesAt j "nested"
  let index ← readNested "" (sizeOfJson j + 1) nested []
  let tree : Tree := ⟨nested.map (·.1), index⟩
  let index ← index.mapM fun (k, o) => return (k, ← tree.resolveObject o)
  return { tree with index := index }

/-- The kinds of objects that can be asked for. -/
inductive Wanted
  | message | enum | service
  deriving DecidableEq, Repr

def Wanted.name : Wanted → String
  | message => "type"
  | enum => "enum"
  | service => "service"

def Wanted.fits : Wanted → ObjectBody → Bool
  | message, .message _ _ => true
  | enum, .enum _ => true
  | service, .service _ => true
  | _, _ => false

/-- The object of a wanted kind at a path, or the wording of its absence. -/
def Tree.lookupKind (t : Tree) (wanted : Wanted) (path : String) : Except String Object :=
  match (t.lookup path).bind t.object? with
  | some o => if wanted.fits o.body then .ok o else refuse
  | none => refuse
where
  refuse : Except String Object := .error ("no " ++ wanted.name ++ " named " ++ Text.quoted path)

end ProtoBind.Reflection
