/-
The schema graph: an arena of nodes.

Nodes refer to their parent and their children by number. Node 0 is the
package without a name. A node's full name is its parent's full name, a dot
and its own name, and no two nodes share one; `byName` finds a node by it.
-/
import ProtoBind.Schema.Default
import ProtoBind.Schema.Node

namespace ProtoBind.Schema

structure Graph where
  nodes : List Node
  files : List String
  /-- Full names and the nodes that have them. -/
  byName : List (String × Nat)
  finalized : Bool
  deriving Repr, Inhabited

/-- Two declarations have one full name. -/
structure Duplicate where
  fullName : String
  file : Option String
  previous : Option String
  deriving DecidableEq, Repr, Inhabited

namespace Graph

def root : Node :=
  { name := "", body := .package, index := 0, parent := none, children := [], fullName := "" }

def empty : Graph := ⟨[root], [], [("", 0)], false⟩

def node? (g : Graph) (i : Nat) : Option Node := g.nodes[i]?

def addFile (g : Graph) (file : String) : Graph :=
  if g.files.contains file then g else { g with files := g.files ++ [file] }

def find? (g : Graph) (fullName : String) : Option Nat := g.byName.lookup fullName

def fileOf (g : Graph) (i : Nat) : Option String := (g.node? i).bind (·.file)

/-- The full name of a child. -/
def childName (parent name : String) : String := if parent.isEmpty then name else parent ++ "." ++ name

/-- Why a node could not be added. -/
inductive AddFault
  | noParent
  | duplicate (d : Duplicate)
  deriving DecidableEq, Repr, Inhabited

/-- Adds a node under a parent and gives its number. -/
def add (g : Graph) (entry : Entry) (parent : Nat) : Except AddFault (Nat × Graph) :=
  match g.node? parent with
  | none => .error .noParent
  | some p =>
    let fullName := childName p.fullName entry.name
    match g.find? fullName with
    | some existing => .error (.duplicate ⟨fullName, entry.file, g.fileOf existing⟩)
    | none =>
      let index := g.nodes.length
      let node : Node :=
        { entry with index := index, parent := some parent, children := [], fullName := fullName }
      let nodes := (g.nodes.modify parent fun p => { p with children := p.children ++ [index] })
      .ok (index, { g with nodes := nodes ++ [node], byName := g.byName ++ [(fullName, index)] })

/-- The package of the given name parts below a node, created as needed. Packages that were
created before a failure stay. -/
def packageUnder (g : Graph) (current : Nat) : List String → Graph × Except AddFault Nat
  | [] => (g, .ok current)
  | part :: rest =>
    let fullName :=
      if current = 0 then part else ((g.node? current).map (·.fullName)).getD "" ++ "." ++ part
    match g.find? fullName with
    | none =>
      match g.add { name := part, body := .package } current with
      | .ok (index, g) => g.packageUnder index rest
      | .error e => (g, .error e)
    | some index =>
      match g.node? index with
      | some n =>
        if n.kind = .package then g.packageUnder index rest
        else (g, .error (.duplicate ⟨fullName, none, n.file⟩))
      | none => (g, .error .noParent)

/-- The package with a dotted name, created as needed. -/
def package (g : Graph) (name : String) : Graph × Except AddFault Nat :=
  if name.isEmpty then (g, .ok 0) else g.packageUnder 0 (Text.splitOnChar '.' name)

/-! ## Queries -/

def parentOf (g : Graph) (n : Node) : Option Node := n.parent.bind g.node?

def childrenOf (g : Graph) (n : Node) : List Node := n.children.filterMap g.node?

def childrenOfKind (g : Graph) (n : Node) (k : Kind) : List Node :=
  (g.childrenOf n).filter (·.kind == k)

/-- The node with a full name, leading dots aside. -/
def lookup (g : Graph) (name : String) : Option Nat :=
  g.find? (String.ofList (name.toList.dropWhile (· == '.')))

/-- The nodes on a stack and those below them, depth first. -/
def walkStack (g : Graph) : (fuel : Nat) → List Nat → List Nat
  | 0, _ => []
  | _, [] => []
  | fuel + 1, i :: stack =>
    i :: g.walkStack fuel (((g.node? i).map (·.children)).getD [] ++ stack)

/-- A node and all below it, depth first in order of declaration. -/
def walk (g : Graph) (start : Nat) : List Nat := g.walkStack (g.nodes.length + 1) [start]

/-- The nodes of the walk from the root. -/
def walkNodes (g : Graph) : List Node := (g.walk 0).filterMap g.node?

/-- The packages in the order of the walk. -/
def packages (g : Graph) : List Node := g.walkNodes.filter (·.kind == .package)

/-- Climbs while there is a parent that is not a package. -/
def climb (g : Graph) : (fuel : Nat) → Node → Node
  | 0, n => n
  | fuel + 1, n =>
    match g.parentOf n with
    | none => n
    | some p => if p.kind = .package then n else g.climb fuel p

/-- The outermost declaration around a node. -/
def topLevel (g : Graph) (n : Node) : Node := g.climb g.nodes.length n

/-! ## Resolution -/

/-- The message or enum with a full name. -/
def typeNamed? (g : Graph) (fullName : String) : Option Nat :=
  match g.find? fullName with
  | none => none
  | some i =>
    match g.node? i with
    | some n => if n.kind = .message ∨ n.kind = .enum then some i else none
    | none => none

/-- Looks for a name in a scope and then in the scopes around it. A scope counts only when it
holds the first part of the name. -/
def searchScopes (g : Graph) (name first : String) : (fuel : Nat) → Option Nat → Option Nat
  | 0, _ => none
  | _, none => none
  | fuel + 1, some scope =>
    match g.node? scope with
    | none => none
    | some n =>
      let found :=
        if (g.find? (childName n.fullName first)).isSome then g.typeNamed? (childName n.fullName name)
        else none
      match found with
      | some i => some i
      | none => g.searchScopes name first fuel n.parent

/-- The message or enum that a name means in a scope. A leading dot makes a name absolute. -/
def resolve (g : Graph) (name : String) (scope : Option Nat) : Option Nat :=
  match name.toList with
  | '.' :: rest => g.typeNamed? (String.ofList rest)
  | cs => g.searchScopes name (String.ofList (cs.takeWhile (· != '.'))) (g.nodes.length + 1) scope

def resolveReference (g : Graph) (r : Reference) (scope : Option Nat) : Reference :=
  { r with target := g.resolve r.name scope }

def resolveLeaf (g : Graph) (scope : Option Nat) : Leaf → Leaf
  | .scalar s => .scalar s
  | .reference r => .reference (g.resolveReference r scope)

/-- A body with its references resolved; the scope of a field is its parent, that of a method
is what surrounds its service. -/
def resolveBody (g : Graph) (n : Node) : Body :=
  match n.body with
  | .field f =>
    .field { f with
      type := f.type.withLeaf (g.resolveLeaf n.parent f.type.leaf)
      extendeeTarget := match f.extendee with
        | some e => g.resolve e n.parent
        | none => f.extendeeTarget }
  | .method m =>
    let scope := (g.parentOf n).bind (·.parent)
    .method { m with
      request := g.resolveReference m.request scope
      response := g.resolveReference m.response scope }
  | b => b

/-- The references of a body that have no target. -/
def missing : Body → List String
  | .field f =>
    match f.type.leaf with
    | .reference ⟨name, none⟩ => [name]
    | _ => []
  | .method m =>
    [m.request, m.response].filterMap fun r => if r.target.isNone then some r.name else none
  | _ => []

/-- The graph with every reference resolved. -/
def resolveAll (g : Graph) : Graph :=
  { g with nodes := g.nodes.map fun n => { n with body := g.resolveBody n } }

/-- The references without a target, in the order of the nodes that hold them. -/
def unresolved (g : Graph) : List (Node × String) :=
  g.nodes.flatMap fun n => (missing n.body).map fun name => (n, name)

/-- The value of a field in a fresh message. -/
def defaultOf (g : Graph) (f : Field) : Except ValueFault Value :=
  match f.type with
  | .repeated _ => .ok (.list [])
  | .map _ _ => .ok (.dict [])
  | .single (.scalar s) =>
    match f.explicitDefault with
    | some raw => s.convertDefault raw
    | none => .ok s.zero
  | .single (.reference r) =>
    match r.target.bind g.node? with
    | none => .ok .null
    | some target =>
      match target.body with
      | .enum values =>
        let first := (values.head?.map (·.number)).getD 0
        match f.explicitDefault with
        | some raw => raw.plainText.map fun name => .int ((target.numberOf? name).getD first)
        | none => .ok (.int first)
      | _ => .ok .null

/-- Computes the defaults of nodes in order and stops at the first that has none. -/
def setDefaults (g : Graph) : List Node → List Node × Option ValueFault
  | [] => ([], none)
  | n :: rest =>
    match n.body with
    | .field f =>
      match g.defaultOf f with
      | .error e => (n :: rest, some e)
      | .ok v =>
        let (rest, fault) := g.setDefaults rest
        ({ n with body := .field { f with default := v } } :: rest, fault)
    | _ =>
      let (rest, fault) := g.setDefaults rest
      (n :: rest, fault)

/-- Resolves every reference and computes every default. Gives the references that have no
target, or why a default could not be computed. -/
def finalize (g : Graph) : Graph × Except ValueFault (List (Node × String)) :=
  let g := g.resolveAll
  let missing := g.unresolved
  let (nodes, fault) := g.setDefaults g.nodes
  match fault with
  | some e => ({ g with nodes := nodes }, .error e)
  | none => ({ g with nodes := nodes, finalized := true }, .ok missing)

end Graph
end ProtoBind.Schema
