/-
The classes of a program.

The code of the modules takes some names for granted: those of its imports and of
the language, and those that the classes of messages inherit. Where a declaration
takes such a name, or the text of a module is no code, there are no classes;
otherwise there is one for every message, enum and service.
-/
import ProtoBind.Message.Class

namespace ProtoBind.Message

open Schema (Graph Node)
open Codegen (Module Program bound nestedNames)

/-! ## Names that are taken for granted -/

/-- Such a name is private to the class in which it stands, or the language gives it a meaning. -/
def isReserved (name : String) : Bool := Text.startsWith name "__"

/-- A name that the language gives a meaning in every class. -/
def isSpecial (name : String) : Bool := isReserved name && "__".toList.isSuffixOf name.toList

/-- The names of the language that the methods of classes use. -/
def builtins : List String := ["isinstance", "int", "float", "bool", "str", "bytes"]

/-- The name of the language that the bodies of classes use. -/
def decorator : String := "classmethod"

/-- Names in an enum class that say how it is made. -/
def directives : List String := ["_order_", "_ignore_", "_missing_", "_generate_next_value_", "_numeric_repr_",
  "_iter_member_", "_iter_member_by_value_", "_iter_member_by_def_"]

/-- The name of a module can be imported. -/
def isDotted (module : String) : Bool :=
  (Text.splitOnChar '.' module).all fun part =>
    part.toList.all Codegen.isWord && !Naming.keywords.contains part && match part.toList with
      | [] => false
      | c :: _ => !c.isDigit

/-- The attributes of a message: those of its fields and those of its oneof groups. -/
def attributesOf (g : Graph) (n : Node) : List String :=
  (fieldsOf g n).map (fun x => Naming.attributeName x.1.name) ++
    n.oneofs.map fun group => Naming.attributeName group.name

/-- The declarations of a module leave it its imports and the names of the language. -/
def keepsModule (m : Module) : Bool :=
  let aliases := m.imports.map (·.name)
  m.imports.all (fun i => isDotted i.module && !isReserved i.name) &&
    (m.nodes.flatMap bound).all fun b => !isReserved b.1 && !(aliases ++ decorator :: builtins).contains b.1

/-- What is declared in a message leaves its class what it uses and what it inherits. -/
def keepsMessage (g : Graph) (m : Module) (n : Node) : Bool :=
  let used := decorator :: m.imports.map (·.name)
  let nested := (nestedNames g n).map (·.1)
  let descriptors := n.oneofs.flatMap (groupDescriptors (Codegen.className n) (fieldsOf g n))
  nested.all (fun name => !isReserved name && !used.contains name && !Naming.messageReserved.contains name) &&
    descriptors.all (fun (name, d) => !used.contains name && match d with
      | .member _ _ => !nested.contains name
      | .group _ _ => true) &&
    (attributesOf g n).all (!isSpecial ·)

/-- What is declared in an enum or a service leaves its class what the language puts there. -/
def keepsClass (g : Graph) (n : Node) : Bool :=
  n.enumValues.all (fun v => !isSpecial v.name && !directives.contains v.name) &&
    (methodsOf g n).all fun x => !isReserved (Naming.methodName (Codegen.snakeCase x.1.name))

/-- The statement that binds an enum to its descriptor finds the enum. -/
def bindsEnum (p : Program) (m : Module) (n : Node) : Bool := p.resolve m [] n == some (.enum n.index)

/-- The module names of the schema files are apart from those of the modules that the code imports for itself. -/
def keepsImports (p : Program) : Bool :=
  let own := [p.options.runtime, p.options.reflectionModule, "typing", "enum"]
  let around (inner outer : String) : Bool := (Codegen.enclosing inner).contains outer
  decide own.Nodup && p.modules.all fun m =>
    let name := p.options.moduleForFile m.file
    own.all fun w => w != name && !around name w && !around w name

/-- A module can be asked for its names when its index is read: it lies below the index, which is read before it, or
imports no other module that would have the index read first. -/
def isReady (p : Program) (index : Codegen.IndexPlan) (n : Node) : Bool :=
  match n.file.bind p.module? with
  | none => true
  | some m => (Codegen.enclosing (p.options.moduleForFile m.file)).contains index.module ||
      m.imports.all fun i => match i.target with
        | .file _ => false
        | .module _ => true

/-- The indexes leave the modules their places, export nothing with the name of a module or of what they import, and
find what they export. -/
def keepsIndexes (p : Program) : Bool :=
  let parts := p.modules.flatMap (fun m => p.options.fileComponents m.file) ++
    p.graph.packages.flatMap p.options.packageComponents
  !p.options.emitIndex || (Codegen.planIndexes p.graph p.options).all fun index =>
    p.modules.all (fun m => p.options.pathForFile m.file != index.path) &&
      ((p.graph.childrenOf index.package).flatMap bound).all (fun b =>
        !isReserved b.1 && !parts.contains b.1 && b.1 != Codegen.ImportTable.candidate "reflection") &&
      (p.graph.childrenOf index.package).all (isReady p index)

/-- Nothing takes a name that the code of the program relies on. -/
def keepsNames (p : Program) : Bool :=
  keepsImports p && keepsIndexes p && p.modules.all keepsModule &&
    p.graph.nodes.all fun n => n.kind == .package || match n.file.bind p.module? with
      | none => false
      | some m => match n.kind with
        | .message => keepsMessage p.graph m n
        | .enum => keepsClass p.graph n && bindsEnum p m n
        | .service => keepsClass p.graph n
        | _ => true

/-! ## Texts -/

/-- The name of a schema file can stand in the first line of its module, where the declaration of a coding would be
read as one. -/
def isTitle (file : String) : Bool :=
  file.toList.all (fun c => c != '\n' && c != '\r' && c != '\x00') &&
    ["coding:", "coding="].all fun word => !Text.hasPart word.toList file.toList

/-- A documentation can stand in a comment. -/
def isComment (doc : Option String) : Bool := !(doc.getD "").toList.contains '\x00'

/-- The docstring of a documentation is code: no single quote is left behind it. Two quotes are a text of their own. -/
def isClosed (doc : Option String) : Bool :=
  let lines := Text.splitLines (doc.getD "").toList
  lines.length != 1 || lines.all (Codegen.trailingQuotes · % 3 != 1)

/-- The documentation of a declaration can stand in its module. -/
def isReadable (n : Node) : Bool :=
  isComment n.doc && n.oneofs.all (isComment ·.doc) && n.enumValues.all (isComment ·.doc) &&
    (n.kind == .field || n.kind == .package || isClosed n.doc)

/-- Fewer than a hundred blocks of code stand around a line of the class of a message: those of the classes around it,
and up to six of its own. -/
def isShallow (g : Graph) (n : Node) : Bool :=
  n.kind != .message || decide ((Codegen.outerClasses g g.nodes.length n).length + 6 < 100)

/-- The texts of the modules are code. -/
def isCode (p : Program) : Bool :=
  p.modules.all (isTitle ·.file) && p.graph.nodes.all fun n => isReadable n && isShallow p.graph n

/-! ## Libraries -/

/-- Why there are no classes. -/
inductive LibraryFault
  | program (fault : Codegen.ProgramFault)
  /-- The text of a module is no code. -/
  | unreadable
  /-- A name that the code relies on is taken, or it cannot be told what an expression stands for. -/
  | hidden
  /-- The names of an enum cannot be members together. -/
  | enum (fault : ValueFault)
  deriving DecidableEq, Repr, Inhabited

namespace Library

/-- The module in which a declaration stands gives its class. -/
def classOf? {α : Type} (p : Program) (make : Module → Node → Option α) (n : Node) : Except LibraryFault α :=
  match (n.file.bind p.module?).bind fun m => make m n with
  | some c => .ok c
  | none => .error .hidden

/-- The classes of a program, with the reflection tree they are bound to. -/
def ofProgram (p : Program) (t : Reflection.Tree) : Except LibraryFault Library := do
  if !isCode p then throw .unreadable
  if !keepsNames p then throw .hidden
  let ofKind (k : Schema.Kind) : List Node := p.graph.nodes.filter (·.kind = k)
  return {
    tree := t
    messages := ← (ofKind .message).mapM (classOf? p (messageClass p t))
    enums := ← (ofKind .enum).mapM fun n => (enumClass n).mapError .enum
    clients := ← (ofKind .service).mapM (classOf? p (clientClass p)) }

/-- The classes of a graph. -/
def ofGraph (g : Graph) (o : Codegen.Options) (t : Reflection.Tree) : Except LibraryFault Library := do
  ofProgram (← (Program.ofGraph g o).mapError .program) t

end Library
end ProtoBind.Message
