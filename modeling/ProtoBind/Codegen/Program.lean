/-
What the names in generated code stand for.

A module binds the aliases of its imports and the names of its declarations, and
the class of a message binds the names of what is nested in it; where a name is
bound more than once, the last binding counts. An expression for a class is a path
of such names. In a method the method's own names come before those of the module,
and those of the classes around it are not seen.
-/
import ProtoBind.Codegen.Assembly

namespace ProtoBind.Codegen

open Schema (Graph Node ValueType)

/-! ## Bindings -/

/-- What an expression stands for. Declarations are given by their index in the graph. -/
inductive Referent
  /-- The module of a schema file. -/
  | module (file : String)
  | message (index : Nat)
  | enum (index : Nat)
  | client (index : Nat)
  /-- The dictionary type beside the class of a message. -/
  | shape
  /-- A message of a class. -/
  | object (index : Nat)
  /-- Anything else: it cannot be called and has none of the attributes of a class. -/
  | other
  deriving DecidableEq, Repr, Inhabited

/-- The class of a message or an enum. -/
def Referent.ofType (n : Node) : Referent := if n.kind = .enum then .enum n.index else .message n.index

/-- The names that a declaration binds where it stands. -/
def bound (n : Node) : List (String × Referent) :=
  match n.kind with
  | .message => [(shapeName n, .shape), (className n, .message n.index)]
  | .enum => [(className n, .enum n.index)]
  | .service => [(className n, .client n.index)]
  | .field => [(className n, .other)]
  | .package | .method => []

/-- The names of what is nested in a message. -/
def nestedNames (g : Graph) (n : Node) : List (String × Referent) :=
  (g.childrenOfKind n .enum ++ g.childrenOfKind n .message).flatMap bound

/-- The last binding of a name. -/
def lastBound (names : List (String × Referent)) (name : String) : Option Referent :=
  names.reverse.lookup name

/-- A generated module: the imports it makes, and its declarations in the order in which they stand. -/
structure Module where
  file : String
  imports : List Import
  nodes : List Node
  deriving Repr, Inhabited

namespace Module

/-- The names of a module. An import binds the module that it was made for. -/
def names (m : Module) : List (String × Referent) :=
  m.imports.map (fun i => (i.name, match i.target with
    | .file file => .module file
    | .module _ => .other)) ++ m.nodes.flatMap bound

/-- The names in the expression for the class of a declaration. -/
def segments? (g : Graph) (m : Module) (target : Node) : Option (List String) :=
  let inside := outerClasses g g.nodes.length target ++ [className target]
  if target.file = some m.file then some inside
  else do
    let file ← target.file
    let i ← m.imports.find? (·.target == .file file)
    return i.name :: inside

end Module

/-! ## Programs -/

/-- Why there is no program for a graph. -/
inductive ProgramFault
  | plan (fault : PlanFault)
  | assembly (file : String) (fault : AssemblyFault)
  deriving DecidableEq, Repr, Inhabited

/-- The modules of a graph. -/
structure Program where
  graph : Graph
  options : Options
  modules : List Module
  deriving Repr, Inhabited

/-- What the own names of a method stand for; none where that depends on how far the method has come. -/
abbrev Locals := List (String × Option Referent)

namespace Program

/-- The modules of a graph, if all of them can be assembled. -/
def ofGraph (g : Graph) (o : Options) : Except ProgramFault Program := do
  let groups ← (plan g o).mapError .plan
  let modules ← groups.mapM fun group =>
    match assembleWithImports g o group with
    | (.ok _, imports) => .ok ⟨group.file, imports, group.ordered⟩
    | (.error e, _) => .error (.assembly group.file e)
  return ⟨g, o, modules⟩

def module? (p : Program) (file : String) : Option Module := p.modules.find? (·.file == file)

/-- An attribute of a module or of the class of a message. -/
def member (p : Program) : Referent → String → Option Referent
  | .module file, name => do lastBound (← p.module? file).names name
  | .message i, name => do lastBound (nestedNames p.graph (← p.graph.node? i)) name
  | _, _ => none

/-- What a path of names stands for in a method of a module, where that can be told. -/
def denote (p : Program) (m : Module) (own : Locals) : List String → Option Referent
  | [] => none
  | name :: rest => do
    let first ← match own.lookup name with
      | some r => r
      | none => lastBound m.names name
    rest.foldlM p.member first

/-- What the expression for the class of a declaration stands for. -/
def resolve (p : Program) (m : Module) (own : Locals) (target : Node) : Option Referent := do
  p.denote m own (← m.segments? p.graph target)

end Program

/-! ## The names of methods -/

/-- The values of a field may share one run. -/
def hasRuns (g : Graph) (t : ValueType) : Bool :=
  t.isRepeated && match t.leaf with
    | .scalar k => k.isPackable
    | .reference r => (r.target.bind g.node?).any (·.kind == .enum)

/-- The names of the method that decodes a message. -/
def decodeLocals (g : Graph) (n : Node) : Locals :=
  let types := (g.childrenOf n).filterMap fun c => c.field?.map (·.type)
  [("cls", some (.message n.index)), ("reader", some .other), ("length", some .other), ("end", some .other),
    ("result", some (.object n.index)), ("tag", some .other)] ++
    (if types.any (·.isMap) then ["entry_end", "key", "value", "entry_tag"].map (·, none) else []) ++
    if types.any (hasRuns g) then [("packed_end", none)] else []

/-- The names of the method that creates a message, where it converts what a field of a type holds. -/
def createLocals (n : Node) (t : ValueType) : Locals :=
  [("cls", some (.message n.index)), ("properties", some .other), ("result", some (.object n.index))] ++
    match t with
    | .single _ => []
    | .repeated _ => [("item", none)]
    | .map _ _ => [("key", none), ("value", none)]

/-- The names of a method of a client, those where it converts the items of a stream included. -/
def callLocals (streams : Bool) : Locals :=
  [("self", none), ("request", none), ("metadata", none)] ++ if streams then [("item", none)] else []

end ProtoBind.Codegen
