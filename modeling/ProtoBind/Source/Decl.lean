/-
Declarations of a schema file.

`Tree.meaning` gives each construct its meaning from the meanings of its
parts, left to right and parts first, so the first bad literal in that order
is the one reported.
-/
import ProtoBind.Source.Literal
import ProtoBind.Source.Parser

namespace ProtoBind.Source

inductive Label
  | repeated | optional | required
  deriving DecidableEq, Repr, Inhabited

def Label.word : Label → String
  | repeated => "repeated"
  | optional => "optional"
  | required => "required"

/-- Options in the order of their first mention. -/
abbrev Options := List (String × Value)

structure FieldDecl where
  label : Option Label
  typeName : String
  name : String
  tag : Int
  options : Options
  line : Nat
  deriving Repr, Inhabited

structure MapDecl where
  keyType : String
  valueType : String
  name : String
  tag : Int
  options : Options
  line : Nat
  deriving Repr, Inhabited

structure OneofDecl where
  name : String
  fields : List FieldDecl
  line : Nat
  deriving Repr, Inhabited

structure EnumValueDecl where
  name : String
  number : Int
  line : Nat
  deriving Repr, Inhabited

structure EnumDecl where
  name : String
  values : List EnumValueDecl
  line : Nat
  deriving Repr, Inhabited

structure RpcDecl where
  name : String
  request : String
  requestStream : Bool
  response : String
  responseStream : Bool
  line : Nat
  deriving Repr, Inhabited

structure ServiceDecl where
  name : String
  rpcs : List RpcDecl
  line : Nat
  deriving Repr, Inhabited

structure ExtendDecl where
  extendee : String
  fields : List FieldDecl
  line : Nat
  deriving Repr, Inhabited

/-- A declaration. Empty statements, reserved names and extension ranges declare nothing. -/
inductive Decl
  | dialect (value : String)
  | edition (value : String)
  | package (name : String)
  | imports (file : String)
  | option (name : String) (value : Value)
  | field (decl : FieldDecl)
  | map (decl : MapDecl)
  | oneof (decl : OneofDecl)
  | message (name : String) (items : List Decl) (line : Nat)
  | enum (decl : EnumDecl)
  | service (decl : ServiceDecl)
  | extend (decl : ExtendDecl)
  deriving Repr, Inhabited

/-- The construct's name in reports. -/
def ruleName : Rule → String
  | .field => "field"
  | .mapField => "map_field"
  | .oneofField => "oneof_field"
  | .enumNumber => "enum_number"
  | .number => "number"
  | .strings => "strings"
  | .syntaxDecl => "syntax"
  | .editionDecl => "edition"
  | .importDecl => "import_stmt"
  | _ => ""

/-- A literal without a meaning, and the construct it stands in. -/
structure LiteralFault where
  rule : Rule
  kind : LiteralKind
  deriving DecidableEq, Repr, Inhabited

/-- The meaning of a part of a file. -/
inductive Meaning
  | token (t : Token)
  | name (s : String)
  | value (v : Value)
  | entry (key : String) (v : Value)
  | options (entries : Options)
  | label (l : Label)
  | number (n : Int)
  | stream
  | enumValue (decl : EnumValueDecl)
  | rpc (decl : RpcDecl)
  /-- A field inside a oneof group; it has no label. -/
  | member (decl : FieldDecl)
  | decl (d : Decl)
  | file (decls : List Decl)
  | nothing
  deriving Repr, Inhabited

namespace Meaning

def name? : Meaning → Option String
  | name s => some s
  | _ => none

def value? : Meaning → Option Value
  | value v => some v
  | _ => none

def decl? : Meaning → Option Decl
  | decl d => some d
  | _ => none

def fieldDecl? : Meaning → Option FieldDecl
  | decl (.field f) => some f
  | _ => none

def member? : Meaning → Option FieldDecl
  | member f => some f
  | _ => none

def label? : Meaning → Option Label
  | label l => some l
  | _ => none

def options? : Meaning → Option Options
  | options o => some o
  | _ => none

def entry? : Meaning → Option (String × Value)
  | entry k v => some (k, v)
  | _ => none

/-- The text of a token of a terminal. -/
def text? (t : Terminal) : Meaning → Option String
  | token k => if k.terminal = t then some k.text else none
  | _ => none

/-- A meaning that passes through a construct with one part of interest. -/
def inner (parts : List Meaning) : Meaning :=
  (parts.find? fun
    | token _ => false
    | _ => true).getD nothing

def firstText (t : Terminal) (parts : List Meaning) : String := (parts.findSome? (text? t)).getD ""

def firstName (parts : List Meaning) : String := (parts.findSome? name?).getD ""

def optionsOf (parts : List Meaning) : Options := (parts.findSome? options?).getD []

/-- The tag of a field, which stands in the construct `rule`. -/
def tagOf (rule : Rule) (parts : List Meaning) : Except LiteralFault Int :=
  match intLiteral? (firstText .int parts).toList with
  | some n => .ok n
  | none => .error ⟨rule, .number⟩

def unquote [CharacterNames] (rule : Rule) (text : String) : Except LiteralFault String :=
  (stringLiteral text.toList).mapError fun kind => ⟨rule, kind⟩

/-- All tokens of a construct written together. -/
def joined (parts : List Meaning) : List Char :=
  parts.flatMap fun
    | token t => t.text.toList
    | _ => []

/-- The entries with a key given twice at its first place with its last value. -/
def optionsOfEntries (parts : List Meaning) : Options :=
  Entries.ofList (· == ·) (parts.filterMap entry?)

/-- Requests and responses of an rpc: the types in order, each with whether it is a stream. -/
def rpcTypes : List Meaning → List (String × Bool)
  | stream :: name s :: rest => (s, true) :: rpcTypes rest
  | name s :: rest => (s, false) :: rpcTypes rest
  | _ :: rest => rpcTypes rest
  | [] => []

def rpcDecl (line : Nat) (parts : List Meaning) : RpcDecl :=
  let types := rpcTypes parts
  let request := types.headD ("", false)
  let response := (types.drop 1).headD ("", false)
  ⟨firstText .ident parts, request.1, request.2, response.1, response.2, line⟩

/-- The meaning of a construct from the meanings of its parts; `line` is the line of its first
token. -/
def ofParts [CharacterNames] (rule : Rule) (line : Nat) (parts : List Meaning) : Except LiteralFault Meaning :=
  match rule with
  | .file => .ok (file (parts.filterMap decl?))
  | .syntaxDecl => return decl (.dialect (← unquote rule (firstText .string parts)))
  | .editionDecl => return decl (.edition (← unquote rule (firstText .string parts)))
  | .packageDecl => .ok (decl (.package (firstName parts)))
  | .importDecl => return decl (.imports (← unquote rule (firstText .string parts)))
  | .optionDecl =>
    .ok (decl (.option (firstName parts) ((parts.findSome? value?).getD .null)))
  | .optionName => .ok (name (Text.join "." (parts.filterMap name?)))
  | .optionPart | .aggregateKey =>
    match parts with
    | [token t] => .ok (name t.text)
    | _ => .ok (name (firstName parts))
  | .extensionName => .ok (name ("(" ++ firstName parts ++ ")"))
  | .constant =>
    match inner parts with
    | name s => .ok (value (.ident s))
    | m => .ok m
  | .number =>
    match numberLiteral? (joined parts) with
    | some v => .ok (value v)
    | none => .error ⟨rule, .number⟩
  | .strings => do
    let texts ← (parts.filterMap (text? .string)).mapM (unquote rule)
    return value (.text (String.join texts))
  | .aggregate =>
    .ok (value (.dict ((optionsOfEntries parts).map fun (k, v) => (.text k, v))))
  | .aggregateEntry =>
    .ok (entry (firstName parts) ((parts.findSome? value?).getD .null))
  | .listValue => .ok (value (.list (parts.filterMap value?)))
  | .message =>
    .ok (decl (.message (firstText .ident parts) (parts.filterMap decl?) line))
  | .field => do
    let tag ← tagOf rule parts
    return decl (.field ⟨parts.findSome? label?, firstName parts, firstText .ident parts, tag,
      optionsOf parts, line⟩)
  | .oneofField => do
    let tag ← tagOf rule parts
    return member ⟨none, firstName parts, firstText .ident parts, tag, optionsOf parts, line⟩
  | .mapField => do
    let tag ← tagOf rule parts
    let idents := parts.filterMap (text? .ident)
    return decl (.map ⟨idents.headD "", firstName parts, (idents.drop 1).headD "", tag,
      optionsOf parts, line⟩)
  | .label =>
    match parts with
    | [token t] => .ok (label (match t.terminal with
      | .repeatedWord => .repeated
      | .optionalWord => .optional
      | _ => .required))
    | _ => .ok nothing
  | .typeRef =>
    match parts with
    | token _ :: rest => .ok (name ("." ++ firstName rest))
    | _ => .ok (name (firstName parts))
  | .fieldOptions => .ok (options (optionsOfEntries parts))
  | .fieldOption => .ok (entry (firstName parts) ((parts.findSome? value?).getD .null))
  | .oneof => .ok (decl (.oneof ⟨firstText .ident parts, parts.filterMap member?, line⟩))
  | .enum =>
    .ok (decl (.enum ⟨firstText .ident parts, parts.filterMap (fun
      | enumValue v => some v
      | _ => none), line⟩))
  | .enumValue =>
    .ok (enumValue ⟨firstText .ident parts, (parts.findSome? fun
      | number n => some n
      | _ => none).getD 0, line⟩)
  | .enumNumber =>
    match intLiteral? (joined parts) with
    | some n => .ok (number n)
    | none => .error ⟨rule, .number⟩
  | .service =>
    .ok (decl (.service ⟨firstText .ident parts, parts.filterMap (fun
      | rpc r => some r
      | _ => none), line⟩))
  | .rpc => .ok (rpc (rpcDecl line parts))
  | .stream => .ok stream
  | .extend => .ok (decl (.extend ⟨firstName parts, parts.filterMap fieldDecl?, line⟩))
  | .fullIdent => .ok (name (Text.join "." (parts.filterMap (text? .ident))))
  | .statement | .messageItem | .oneofItem | .enumItem | .serviceItem | .extendItem
  | .aggregateValue => .ok (inner parts)
  | .empty | .importKind | .reserved | .extensions | .tagRanges | .tagRange | .rangeEnd
  | .fieldNames | .rpcBody => .ok nothing

end Meaning

/-- The line of the first token of some trees. -/
def firstLine (trees : List Tree) : Nat := ((firstToken? trees).map (·.line)).getD 0

mutual

/-- The meaning of a tree. -/
def Tree.meaning [CharacterNames] : Tree → Except LiteralFault Meaning
  | .leaf t => .ok (.token t)
  | .node rule children => do
    let parts ← meaningAll children
    Meaning.ofParts rule (firstLine children) parts

def meaningAll [CharacterNames] : List Tree → Except LiteralFault (List Meaning)
  | [] => .ok []
  | t :: rest => do
    let m ← t.meaning
    let ms ← meaningAll rest
    return m :: ms

end

/-- Why a text has no declarations. -/
inductive ParseFault
  | misplaced (fault : SyntaxFault)
  | literal (fault : LiteralFault)
  deriving DecidableEq, Repr, Inhabited

/-- The declarations and the comments of a parsed text. -/
def declarations [CharacterNames] :
    Except SyntaxFault (List Tree × List Comment) → Except ParseFault (List Decl × List Comment)
  | .error fault => .error (.misplaced fault)
  | .ok (forest, comments) =>
    match meaningAll forest with
    | .error fault => .error (.literal fault)
    | .ok meanings => .ok (meanings.flatMap (fun
      | .file ds => ds
      | _ => []), comments)

/-- The declarations and the comments of a text. -/
def parse [CharacterNames] (text : String) : Except ParseFault (List Decl × List Comment) :=
  declarations (parseTree text.toList)

end ProtoBind.Source
