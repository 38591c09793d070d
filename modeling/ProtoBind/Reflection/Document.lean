/-
The reflection document of a schema graph: the tree of packages with their
messages, enums, services and extensions.
-/
import ProtoBind.Json.Printer
import ProtoBind.Schema.Graph

namespace ProtoBind.Reflection

open Schema

/-- A node of a kind that has no place where it stands in the graph. -/
structure Misfit where
  kind : Kind
  fullName : String
  deriving DecidableEq, Repr, Inhabited

def Misfit.message (m : Misfit) : String :=
  "Unexpected node kind NodeKind." ++ m.kind.name.map Char.toUpper ++ " for " ++ m.fullName

/-- A scalar's name, the path of a resolved type, or a name as it was written. -/
def leafName (g : Graph) : Leaf → String
  | .scalar s => s.name
  | .reference r => ((r.target.bind g.node?).map (·.path)).getD r.name

def referenceName (g : Graph) (r : Reference) : String := leafName g (.reference r)

/-- The default value of a field; bytes are given as the text with those codes. -/
def defaultJson : Value → Json
  | .bool b => .bool b
  | .int n => .int n
  | .float x => .float x
  | .text s => .string s
  | .bytes bs => .string (String.ofList (bs.map fun b => Char.ofNat b.toNat))
  -- No default is a value of another kind.
  | _ => .null

/-- Fields outside a message are of the newer dialect. -/
def dialectOf (g : Graph) (n : Node) : String :=
  match g.parentOf n with
  | some { body := .message dialect _, .. } => dialect
  | _ => "proto3"

/-- Values of the leaf may be packed. -/
def isPackable (g : Graph) : Leaf → Bool
  | .scalar s => s.isPackable
  | .reference r =>
    match r.target.bind g.node? with
    | some target => target.kind == .enum
    | none => false

def isPacked (g : Graph) (n : Node) (f : Schema.Field) : Bool :=
  f.packed.getD (dialectOf g n == "proto3")

def fieldJson (g : Graph) (n : Node) (f : Schema.Field) : Json :=
  let leaf := f.type.leaf
  let shape := match f.type with
    | .repeated _ =>
      ("rule", .string "repeated") ::
        if isPackable g leaf then [("packed", .bool (isPacked g n f))] else []
    | .map key _ => [("keyType", .string key)]
    | .single _ =>
      match f.default with
      | .null => []
      | v => [("default", defaultJson v)]
  let extend := match f.extendee with
    | none => []
    | some e => [("extend", .string (((f.extendeeTarget.bind g.node?).map (·.path)).getD e))]
  .object ([("type", .string (leafName g leaf)), ("id", .int f.tag)] ++ shape ++ extend)

def methodJson (g : Graph) (m : Schema.Method) : Json :=
  .object ([("requestType", .string (referenceName g m.request)),
    ("responseType", .string (referenceName g m.response))] ++
    (if m.requestStream then [("requestStream", .bool true)] else []) ++
    (if m.responseStream then [("responseStream", .bool true)] else []))

/-- Groups that have fields, by name. -/
def oneofsJson (groups : List OneofGroup) : Json :=
  .object (Entries.ofList (· == ·) ((groups.filter (!·.fields.isEmpty)).map fun group =>
    (group.name, .object [("oneof", .array (group.fields.map .string))])))

def valuesJson (values : List EnumValue) : Json :=
  .object (Entries.ofList (· == ·) (values.map fun v => (v.name, .int v.number)))

/-- The fields of a message as the document gives them. -/
def fieldsJson (g : Graph) (n : Node) : List (String × Json) :=
  (g.childrenOf n).filterMap fun c => c.field?.map fun f => (c.name, fieldJson g c f)

def methodsJson (g : Graph) (n : Node) : List (String × Json) :=
  (g.childrenOf n).filterMap fun c => c.method?.map fun m => (c.name, methodJson g m)

/-- The children of a node that are documented by themselves: all but a message's fields. -/
def nestedNodes (g : Graph) (n : Node) : List Node :=
  (g.childrenOf n).filter fun c => !(n.kind == .message && c.kind == .field)

/-- The document of a node. Parents stand before their children in the graph, so as much `fuel`
as there are nodes is enough. -/
def nodeJson (g : Graph) : (fuel : Nat) → Node → Except Misfit Json
  | 0, n => .error ⟨n.kind, n.fullName⟩
  | fuel + 1, n => do
    let nested : Except Misfit (List (String × Json)) :=
      (nestedNodes g n).mapM fun c => return (c.name, ← nodeJson g fuel c)
    match n.body with
    | .package => return .object [("nested", .object (← nested))]
    | .message _ groups =>
      let fields := ("fields", Json.object (fieldsJson g n))
      let oneofs := if groups.isEmpty then [] else [("oneofs", oneofsJson groups)]
      let nested ← nested
      return .object (fields :: oneofs ++
        if nested.isEmpty then [] else [("nested", .object nested)])
    | .enum values => return .object [("values", valuesJson values)]
    | .service => return .object [("methods", .object (methodsJson g n))]
    | .field f => return fieldJson g n f
    | .method _ => .error ⟨n.kind, n.fullName⟩

/-- The document of a whole graph. -/
def document (g : Graph) : Except Misfit Json :=
  match g.node? 0 with
  | some root => nodeJson g (g.nodes.length + 1) root
  | none => .ok (.object [])

end ProtoBind.Reflection
