/-
Loading schema files into one graph.

A file is parsed, the files it imports are loaded first, and then its
declarations become nodes. The names on the way from the first file to the
one being loaded are kept in `loading`; a failed load leaves them there.
-/
import ProtoBind.Schema.Graph
import ProtoBind.Source.Doc

namespace ProtoBind.Schema

/-- Why files could not be turned into a graph. -/
inductive LoadFault
  | misplaced (file : String) (fault : Source.SyntaxFault)
  | literal (fault : Source.LiteralFault)
  | missingFile (file : String) (importer : Option String)
  | duplicate (d : Duplicate)
  | cycle (chain : List String)
  | repeatedTag (file : String) (line : Nat) (tag : Int) (field previous message : String)
  /-- A number of too many digits was to become text. -/
  | unwritable
  | badDefault (fault : ValueFault)
  /-- A node was to be added to a graph without its parent. -/
  | noParent
  deriving Repr, Inhabited

/-- A file name, or the word for none. -/
def fileText : Option String → String
  | some f => f
  | none => "None"

namespace Duplicate

def message (d : Duplicate) : String :=
  "Symbol '" ++ d.fullName ++ "' in " ++ fileText d.file ++ " is already defined in " ++
    fileText d.previous

end Duplicate

/-- The wording of a fault; faults of literals and numbers and defaults have none of their own. -/
def LoadFault.message? : LoadFault → Option String
  | misplaced file f => some (file ++ s!":{f.line}:{f.column}: " ++ f.detail)
  | missingFile file importer =>
    some ("Cannot find schema file '" ++ file ++ "'" ++
      match importer with
      | some i => if i.isEmpty then "" else " (imported from " ++ i ++ ")"
      | none => "")
  | duplicate d => some d.message
  | cycle chain => some ("Import cycle: " ++ Text.join " -> " chain)
  | repeatedTag file line tag field previous message =>
    some (file ++ s!":{line}: field number " ++ intText tag ++ " of '" ++ field ++
      "' is already used by '" ++ previous ++ "' in message " ++ message)
  | literal _ | unwritable | badDefault _ | noParent => none

def LoadFault.ofAdd : Graph.AddFault → LoadFault
  | .noParent => .noParent
  | .duplicate d => .duplicate d

/-- The state of a loader: the graph so far, the files loaded, the files being loaded, the
innermost last, and the lines of its report. -/
structure Loader where
  graph : Graph
  loaded : List String
  loading : List String
  log : List String
  deriving Inhabited

def Loader.empty : Loader := ⟨Graph.empty, [], [], []⟩

/-- A computation on a loader; what it did before a fault stays done. -/
abbrev Load := EStateM LoadFault Loader

namespace Load

def report (message : String) : Load Unit :=
  modify fun s => { s with log := s.log ++ ["[PWLOAD DEBUG] " ++ message] }

def add (entry : Entry) (parent : Nat) : Load Nat := do
  match (← get).graph.add entry parent with
  | .ok (index, g) =>
    modify fun s => { s with graph := g }
    return index
  | .error e => throw (.ofAdd e)

/-- Changes the oneof groups of a message node. -/
def modifyOneofs (index : Nat) (f : List OneofGroup → List OneofGroup) : Load Unit :=
  modify fun s => { s with graph := { s.graph with nodes := s.graph.nodes.modify index fun n =>
    match n.body with
    | .message dialect groups => { n with body := .message dialect (f groups) }
    | _ => n } }

/-- What all declarations of a file share. -/
structure Context where
  file : String
  docs : Source.DocIndex
  dialect : String

def fullNameOf (index : Nat) : Load String := do
  return (((← get).graph.node? index).map (·.fullName)).getD ""

/-- Tags of a message with the names of their fields. -/
abbrev Tags := List (Int × String)

/-- Enters the tag of a field of the message at `index`. The fault of a repeated tag shows it. -/
def checkTag (c : Context) (index : Nat) (tags : Tags) (tag : Int) (name : String) (line : Nat) :
    Load Tags := do
  match tags.lookup tag with
  | some previous =>
    if isShort tag then throw (.repeatedTag c.file line tag name previous (← fullNameOf index))
    else throw .unwritable
  | none => return tags ++ [(tag, name)]

/-- A declared field as an entry. -/
def fieldEntry (c : Context) (decl : Source.FieldDecl) (oneof extendee : Option String) : Entry :=
  let leaf := Leaf.ofName decl.typeName
  { name := decl.name
    file := some c.file
    doc := c.docs.docFor decl.line
    line := some decl.line
    body := .field
      { tag := decl.tag
        type := if decl.label = some .repeated then .repeated leaf else .single leaf
        oneof := oneof
        label := decl.label
        explicitDefault := decl.options.lookup "default"
        packed := (decl.options.lookup "packed").map fun v => v.plainText.toOption == some "true"
        extendee := extendee } }

/-- The option `packed` of a field can be read as text. -/
def hasReadablePacked (decl : Source.FieldDecl) : Bool :=
  (decl.options.lookup "packed").all fun v => v.plainText.toOption.isSome

/-- Adds a declared field. -/
def addField (c : Context) (decl : Source.FieldDecl) (oneof extendee : Option String)
    (parent : Nat) : Load Unit := do
  if hasReadablePacked decl then discard (add (fieldEntry c decl oneof extendee) parent)
  else throw .unwritable

def mapEntry (c : Context) (decl : Source.MapDecl) : Entry :=
  { name := decl.name
    file := some c.file
    doc := c.docs.docFor decl.line
    line := some decl.line
    body := .field { tag := decl.tag, type := .map decl.keyType (Leaf.ofName decl.valueType) } }

def enumEntry (c : Context) (decl : Source.EnumDecl) : Entry :=
  { name := decl.name
    file := some c.file
    doc := c.docs.docFor decl.line
    line := some decl.line
    body := .enum (decl.values.map fun v => ⟨v.name, v.number, c.docs.docFor v.line⟩) }

def rpcEntry (c : Context) (decl : Source.RpcDecl) : Entry :=
  { name := decl.name
    file := some c.file
    doc := c.docs.docFor decl.line
    line := some decl.line
    body := .method
      { request := ⟨decl.request, none⟩
        response := ⟨decl.response, none⟩
        requestStream := decl.requestStream
        responseStream := decl.responseStream } }

def addService (c : Context) (decl : Source.ServiceDecl) (parent : Nat) : Load Unit := do
  let index ← add
    { name := decl.name
      file := some c.file
      doc := c.docs.docFor decl.line
      line := some decl.line
      body := .service } parent
  for rpc in decl.rpcs do
    discard (add (rpcEntry c rpc) index)

/-- Adds the fields of the last group of a message, each to the group once it is a node. -/
def addMembers (c : Context) (index : Nat) (group : String) :
    List Source.FieldDecl → Tags → Load Tags
  | [], tags => return tags
  | f :: rest, tags => do
    let tags ← checkTag c index tags f.tag f.name f.line
    addField c f (some group) none index
    modifyOneofs index fun groups =>
      groups.modify (groups.length - 1) fun g => { g with fields := g.fields ++ [f.name] }
    addMembers c index group rest tags

mutual

/-- Adds a message with all it contains. -/
def addMessage (c : Context) (parent : Nat) : Source.Decl → Load Unit
  | .message name items line => do
    let index ← add
      { name := name
        file := some c.file
        doc := c.docs.docFor line
        line := some line
        body := .message c.dialect [] } parent
    addItems c index items []
  | _ => return

/-- Adds the items of the message at `index`; `tags` are those in use. -/
def addItems (c : Context) (index : Nat) : List Source.Decl → Tags → Load Unit
  | [], _ => return
  | item :: rest, tags => do
    let tags ← match item with
      | .field f => do
        let tags ← checkTag c index tags f.tag f.name f.line
        addField c f none none index
        pure tags
      | .map m => do
        let tags ← checkTag c index tags m.tag m.name m.line
        discard (add (mapEntry c m) index)
        pure tags
      | .oneof o => do
        modifyOneofs index (· ++ [⟨o.name, c.docs.docFor o.line, []⟩])
        addMembers c index o.name o.fields tags
      | .message .. => do
        addMessage c index item
        pure tags
      | .enum e => do
        discard (add (enumEntry c e) index)
        pure tags
      | .extend e => do
        report ("Skipping extend of " ++ e.extendee ++ " nested in " ++ (← fullNameOf index))
        pure tags
      | _ => pure tags
    addItems c index rest tags

end

/-- Adds the declarations of a file to its package. -/
def addDeclarations (c : Context) (package : String) (decls : List Source.Decl) : Load Unit := do
  let (g, result) := (← get).graph.package package
  modify fun s => { s with graph := g }
  let space ← match result with
    | .ok index => pure index
    | .error e => throw (.ofAdd e)
  for decl in decls do
    match decl with
    | .message .. => addMessage c space decl
    | .enum e => discard (add (enumEntry c e) space)
    | .service s => addService c s space
    | .extend e =>
      for f in e.fields do
        addField c f none (some e.extendee) space
    | _ => pure ()

end Load

/-- The dialect of a file: its last, or else the older one. -/
def dialectOf (decls : List Source.Decl) : String :=
  decls.foldl (fun d decl => match decl with
    | .dialect v => v
    | _ => d) "proto2"

def packageOf (decls : List Source.Decl) : String :=
  decls.foldl (fun p decl => match decl with
    | .package v => v
    | _ => p) ""

def importsOf (decls : List Source.Decl) : List String :=
  decls.filterMap fun
    | .imports f => some f
    | _ => none

/-- Files under here are known to every reader and need not be present. -/
def wellKnown : String := "google/protobuf/"

namespace Load

/-- The text of a file; nothing for an absent well-known import. -/
def readFile (find : String → Option String) (file : String) (importer : Option String) :
    Load (Option String) := do
  match find file with
  | some text => return some text
  | none =>
    match importer with
    | some i =>
      if Text.startsWith file wellKnown then
        report ("Skipping well-known import " ++ file ++ " from " ++ i)
        return none
      else throw (.missingFile file importer)
    | none => throw (.missingFile file importer)

/-- What a file parses to. -/
def ofParse (file : String) :
    Except Source.ParseFault (List Source.Decl × List Source.Comment) →
      Load (List Source.Decl × List Source.Comment)
  | .error (.misplaced f) => throw (.misplaced file f)
  | .error (.literal f) => throw (.literal f)
  | .ok parsed => return parsed

/-- Loads a file and, before its declarations, the files it imports. `find` gives the text of a
file. Every file on the way is another one, so more `fuel` than there are files is enough. -/
def load [Source.CharacterNames] (find : String → Option String) :
    (fuel : Nat) → (file : String) → (importer : Option String) → Load Unit
  | 0, file, _ => do throw (.cycle ((← get).loading ++ [file]))
  | fuel + 1, file, importer => do
    let s ← get
    if s.loaded.contains file then return
    if s.loading.contains file then throw (.cycle (s.loading ++ [file]))
    match ← readFile find file importer with
    | none => return
    | some text =>
      report ("Loading " ++ file)
      modify fun s => { s with loading := s.loading ++ [file] }
      let (decls, comments) ← ofParse file (Source.parse text)
      for i in importsOf decls do
        load find fuel i (some file)
      modify fun s => { s with graph := s.graph.addFile file }
      let context : Context := ⟨file, Source.DocIndex.build text.toList comments, dialectOf decls⟩
      addDeclarations context (packageOf decls) decls
      modify fun s => { s with loading := s.loading.dropLast, loaded := s.loaded ++ [file] }

/-- Resolves the graph and reports the references that have no target. -/
def finish : Load Graph := do
  let (g, result) := (← get).graph.finalize
  modify fun s => { s with graph := g }
  match result with
  | .error e => throw (.badDefault e)
  | .ok missing =>
    for (n, name) in missing do
      report ("Unresolved reference '" ++ name ++ "' in " ++ n.fullName ++ " (" ++
        fileText n.file ++ ")")
    return g

end Load

/-- Named texts in order. -/
abbrev Sources := List (String × String)

/-- More than the number of files that can be on the way to one file: each is named in a text
or is the first. -/
def loadFuel (sources : Sources) : Nat :=
  sources.foldl (fun n s => n + s.2.length) (sources.length + 2)

/-- The mapping that a list of named texts denotes. -/
def sourceMap (sources : Sources) : Sources := Entries.ofList (· == ·) sources

/-- Loads one of the sources; imports are looked for among them. -/
def loadOne [Source.CharacterNames] (sources : Sources) (file : String) : Load Unit :=
  Load.load (fun f => (sourceMap sources).lookup f) (loadFuel sources) file none

/-- Loads every source in order and resolves the graph. -/
def loadSources [Source.CharacterNames] (sources : Sources) : Load Graph := do
  for (file, _) in sourceMap sources do
    loadOne sources file
  Load.finish

end ProtoBind.Schema
