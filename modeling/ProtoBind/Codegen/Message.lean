/-
The classes of a message: a dictionary type for its contents, and the class
with its fields, its oneof groups, its nested declarations and the methods
that decode and create it.
-/
import ProtoBind.Codegen.Enum

namespace ProtoBind.Codegen

open Schema (Node Field OneofGroup Leaf ValueType Arity)

/-- The type of a scalar kind's values in generated code. -/
def scalarType (s : Scalar) : String :=
  match s.valueClass with
  | .floating => "float"
  | .integer => "int"
  | .truth => "bool"
  | .text => "str"
  | .octets => "bytes"

/-- The literal of a scalar kind's zero. -/
def zeroLiteral (s : Scalar) : String :=
  match s.valueClass with
  | .floating => "0.0"
  | .integer => "0"
  | .truth => "False"
  | .text => "\"\""
  | .octets => "b\"\""

/-! ## Plans -/

/-- What a field holds, one element at a time, with the expressions for it. -/
inductive Element
  | scalar (kind : Scalar)
  | enum (ref : String)
  | message (ref shape : String)
  | unresolved
  deriving DecidableEq, Repr, Inhabited

/-- All that the code of a field depends on. -/
structure FieldPlan where
  attr : String
  doc : Option String
  tag : Int
  oneof : Option String
  element : Element
  arity : Arity
  deriving Repr, Inhabited

def emitElement (s : Site) (n : Node) : Leaf → Emit Element
  | .scalar k => return .scalar k
  | .reference r => do
    match ← s.targetOf n r with
    | none => return .unresolved
    | some target =>
      let ref ← s.classRef target
      if target.kind = .enum then return .enum ref
      else return .message ref (← s.shapeRef target)

/-- The arity of a type; keys of maps have to be scalar. -/
def arityOf (t : ValueType) : Emit Arity :=
  match t.arity? with
  | some a => return a
  | none => throw (.badKey t.key)

/-- The plans of the fields of a message. All references are resolved before any key is looked
at. -/
def planFields (s : Site) (n : Node) : Emit (List FieldPlan) := do
  let fields := (s.graph.childrenOf n).filterMap fun c => c.field?.map fun f => (c, f)
  let elements ← fields.mapM fun (c, f) => emitElement s c f.type.leaf
  let arities ← fields.mapM fun (_, f) => arityOf f.type
  return (fields.zip (elements.zip arities)).map fun ((c, f), element, arity) =>
    { attr := Naming.attributeName c.name, doc := c.doc, tag := f.tag, oneof := f.oneof
      element := element, arity := arity }

namespace Element

/-- The expression for the class of the elements. -/
def ref : Element → String
  | scalar k => scalarType k
  | enum r => r
  | message r _ => r
  | unresolved => placeholder

/-- The type of what an element may be created from. -/
def accepted (typing : String) : Element → String
  | enum r => typing ++ ".Union[" ++ r ++ ", int, str]"
  | message r shape => typing ++ ".Union[" ++ shape ++ ", " ++ r ++ "]"
  | e => e.ref

/-- Several elements may share one length-delimited run. -/
def isPackable : Element → Bool
  | scalar k => k.isPackable
  | enum _ => true
  | _ => false

/-- Reads one element. -/
def read (runtime : String) : Element → String
  | scalar k => "reader." ++ k.name ++ "()"
  | enum r => runtime ++ ".to_enum(" ++ r ++ ", reader.int32())"
  | e => e.ref ++ ".decode_delimited(reader)"

/-- Converts one element. -/
def convert (runtime value : String) : Element → String
  | scalar k => scalarType k ++ "(" ++ value ++ ")"
  | enum r => runtime ++ ".enum_value(" ++ r ++ ", " ++ value ++ ")"
  | e => e.ref ++ ".create(" ++ value ++ ")"

/-- The value of a map entry before one was read. -/
def zero : Element → String
  | scalar k => zeroLiteral k
  | message r _ => r ++ "()"
  | _ => "0"

end Element

namespace FieldPlan

/-- The type of a field whose elements have the given type. -/
def typeWith (typing : String) (p : FieldPlan) (element : String) : String :=
  match p.arity with
  | .repeated => typing ++ ".List[" ++ element ++ "]"
  | .map key => typing ++ ".Dict[" ++ scalarType key ++ ", " ++ element ++ "]"
  | .single =>
    match p.element with
    | .message _ _ => typing ++ ".Optional[" ++ element ++ "]"
    | _ => element

/-- The field in the dictionary type. -/
def shapeCode (typing : String) (p : FieldPlan) : List Code :=
  Code.ofLines (comments p.doc) ++
    [.line (p.attr ++ ": " ++ p.typeWith typing (p.element.accepted typing))]

/-- The field in the class. -/
def classCode (typing : String) (p : FieldPlan) : List Code :=
  Code.ofLines (comments p.doc) ++ [.line (p.attr ++ ": " ++ p.typeWith typing p.element.ref)]

/-- The field as a member of a group. -/
def memberCode (runtime group : String) (p : FieldPlan) : List Code :=
  Code.ofLines (comments p.doc) ++
    [.line (p.attr ++ " = " ++ runtime ++ ".OneofField(\"" ++ group ++ "\")")]

/-- Fields outside every group. -/
def isRegular (p : FieldPlan) : Bool := (p.oneof.getD "").isEmpty

/-- Reads the field behind its key. -/
def readCode (runtime : String) (p : FieldPlan) : List Code :=
  let read := p.element.read runtime
  let append : Code := .line ("result." ++ p.attr ++ ".append(" ++ read ++ ")")
  match p.arity with
  | .map key =>
    [.line "entry_end = reader.uint32() + reader.pos",
      .line ("key = " ++ zeroLiteral key),
      .line ("value = " ++ p.element.zero),
      .line "while reader.pos < entry_end:",
      .block
        [.line "entry_tag = reader.uint32()",
          .line "if entry_tag >> 3 == 1:", .block [.line ("key = reader." ++ key.name ++ "()")],
          .line "elif entry_tag >> 3 == 2:", .block [.line ("value = " ++ read)],
          .line "else:", .block [.line "reader.skip_type(entry_tag & 7)"]],
      .line ("result." ++ p.attr ++ "[key] = value")]
  | .repeated =>
    if p.element.isPackable then
      [.line "if tag & 7 == 2:",
        .block
          [.line "packed_end = reader.uint32() + reader.pos",
            .line "while reader.pos < packed_end:", .block [append]],
        .line "else:", .block [append]]
    else [append]
  | .single => [.line ("result." ++ p.attr ++ " = " ++ read)]

/-- Sets the field from the properties. -/
def createCode (runtime : String) (p : FieldPlan) : List Code :=
  let source := "properties[\"" ++ p.attr ++ "\"]"
  let value := match p.arity with
    | .repeated => "[" ++ p.element.convert runtime "item" ++ " for item in " ++ source ++ "]"
    | .map key =>
      "\x7b" ++ scalarType key ++ "(key): " ++ p.element.convert runtime "value" ++
        " for key, value in " ++ source ++ ".items()\x7d"
    | .single => p.element.convert runtime source
  [.line ("if properties.get(\"" ++ p.attr ++ "\") is not None:"),
    .block [.line ("result." ++ p.attr ++ " = " ++ value)]]

end FieldPlan

/-! ## Code -/

def messageShapeCode (typing : String) (n : Node) (plans : List FieldPlan) : List Code :=
  let doc := docstring n.doc
  [.line ("class " ++ shapeName n ++ "(" ++ typing ++ ".TypedDict, total=False):"),
    .block (Code.ofLines doc ++ plans.flatMap (·.shapeCode typing) ++
      (if doc.isEmpty && plans.isEmpty then [.line "pass"] else []))]

/-- A oneof group with its members, none if it has no members. -/
def groupCode (runtime : String) (plans : List FieldPlan) (group : OneofGroup) : List Code :=
  let members := plans.filter (·.oneof == some group.name)
  let attr := Naming.attributeName group.name
  if members.isEmpty then []
  else
    [.blank 1] ++ Code.ofLines (comments group.doc) ++ members.flatMap (·.memberCode runtime attr) ++
      [.line (attr ++ " = " ++ runtime ++ ".Oneof(" ++
        Text.join ", " (members.map fun p => "\"" ++ p.attr ++ "\"") ++ ")")]

/-- The branches on the number of a field; the first has the keyword `first`. -/
def branchesCode (runtime : String) : (first : String) → List FieldPlan → List Code
  | _, [] => []
  | first, p :: rest =>
    [.line (first ++ " tag >> 3 == " ++ intText p.tag ++ ":"), .block (p.readCode runtime)] ++
      branchesCode runtime "elif" rest

def decodeCode (runtime : String) (plans : List FieldPlan) : List Code :=
  let skip : Code := .line "reader.skip_type(tag & 7)"
  [.line "@classmethod",
    .line "def decode(cls, reader, length=None):",
    .block
      [.line ("reader = " ++ runtime ++ ".Reader.create(reader)"),
        .line "end = reader.len if length is None else reader.pos + length",
        .line "result = cls()",
        .line "while reader.pos < end:",
        .block ([.line "tag = reader.uint32()"] ++ branchesCode runtime "if" plans ++
          (if plans.isEmpty then [skip] else [.line "else:", .block [skip]])),
        .line "return result"]]

def decodeDelimitedCode (runtime : String) : List Code :=
  [.line "@classmethod",
    .line "def decode_delimited(cls, reader):",
    .block
      [.line ("reader = " ++ runtime ++ ".Reader.create(reader)"),
        .line "return cls.decode(reader, reader.uint32())"]]

def createCode (runtime : String) (plans : List FieldPlan) : List Code :=
  [.line "@classmethod",
    .line "def create(cls, properties=None):",
    .block
      ([.line "if isinstance(properties, cls):", .block [.line "return properties"],
        .line "result = cls()"] ++
        (if plans.isEmpty then []
        else [.line "if not properties:", .block [.line "return result"]]) ++
        plans.flatMap (·.createCode runtime) ++
        [.line "return result"])]

/-- What the code of a message class depends on besides its fields. -/
structure Aliases where
  typing : String
  runtime : String
  reflection : String

/-- The class of a message around the code of its nested declarations. -/
def messageClassCode (a : Aliases) (n : Node) (plans : List FieldPlan) (nested : List Code) :
    List Code :=
  let doc := docstring n.doc
  let regular := plans.filter (·.isRegular)
  [.line ("class " ++ className n ++ "(" ++ a.runtime ++ ".Message):"),
    .block ((if doc.isEmpty then [] else Code.ofLines doc ++ [.blank 1]) ++
      [.line ("reflection = " ++ a.reflection ++ ".root.lookup_type(\"" ++ n.path ++ "\")")] ++
      (if regular.isEmpty then [] else .blank 1 :: regular.flatMap (·.classCode a.typing)) ++
      n.oneofs.flatMap (groupCode a.runtime plans) ++
      nested ++
      [.blank 1] ++ decodeCode a.runtime plans ++
      [.blank 1] ++ decodeDelimitedCode a.runtime ++
      [.blank 1] ++ createCode a.runtime plans)]

/-- The code of each node, with a blank line before it. -/
def emitEach (f : Node → Emit Emitted) (nodes : List Node) : Emit Emitted :=
  nodes.foldlM (fun acc n => do
    let e ← f n
    return acc.append ⟨.blank 1 :: e.code, e.bindings⟩) Emitted.empty

/-- The two classes of a message, `spacing` blank lines apart. Messages inside a message stand
behind it in the graph, so as much `fuel` as there are nodes is enough. -/
def emitMessage (s : Site) (o : Options) : (fuel : Nat) → (spacing : Int) → Node → Emit Emitted
  | 0, _, _ => return Emitted.empty
  | fuel + 1, spacing, n => do
    let typing ← Emit.typingAlias
    let plans ← planFields s n
    let runtime ← Emit.runtimeAlias o
    let reflection ← Emit.reflectionAlias o
    let enums ← emitEach (emitEnum s o) (s.graph.childrenOfKind n .enum)
    let messages ← emitEach (emitMessage s o fuel 1) (s.graph.childrenOfKind n .message)
    let nested := enums.append messages
    checkNumbers (plans.map (·.tag))
    return ⟨messageShapeCode typing n plans ++ [.blank spacing] ++
      messageClassCode ⟨typing, runtime, reflection⟩ n plans nested.code, nested.bindings⟩

end ProtoBind.Codegen
