/-
Declarations without their lines.

A tree is bare when its tokens have no place (`Tree.bare`), and so is what it
means (`Meaning.bare`). The meaning of a bare tree is the bare meaning of the
tree (`Tree.meaning_bare`), so trees that differ in places only declare the same
up to lines (`declarations_bare`).
-/
import ProtoBind.Source.Decl

namespace ProtoBind.Source

/-! ## Without places -/

def Token.bare (t : Token) : Token := { t with line := 0, column := 0 }

mutual

/-- A tree whose tokens have no place. -/
def Tree.bare : Tree → Tree
  | .leaf t => .leaf t.bare
  | .node rule children => .node rule (bareTrees children)

def bareTrees : List Tree → List Tree
  | [] => []
  | t :: rest => t.bare :: bareTrees rest

end

theorem bareTrees_eq : ∀ ts : List Tree, bareTrees ts = ts.map Tree.bare
  | [] => rfl
  | t :: ts => by rw [bareTrees, bareTrees_eq ts, List.map_cons]

def FieldDecl.bare (d : FieldDecl) : FieldDecl := { d with line := 0 }

def MapDecl.bare (d : MapDecl) : MapDecl := { d with line := 0 }

def OneofDecl.bare (d : OneofDecl) : OneofDecl := { d with fields := d.fields.map FieldDecl.bare, line := 0 }

def EnumValueDecl.bare (d : EnumValueDecl) : EnumValueDecl := { d with line := 0 }

def EnumDecl.bare (d : EnumDecl) : EnumDecl := { d with values := d.values.map EnumValueDecl.bare, line := 0 }

def RpcDecl.bare (d : RpcDecl) : RpcDecl := { d with line := 0 }

def ServiceDecl.bare (d : ServiceDecl) : ServiceDecl := { d with rpcs := d.rpcs.map RpcDecl.bare, line := 0 }

def ExtendDecl.bare (d : ExtendDecl) : ExtendDecl := { d with fields := d.fields.map FieldDecl.bare, line := 0 }

mutual

/-- A declaration without its lines. -/
def Decl.bare : Decl → Decl
  | .dialect value => .dialect value
  | .edition value => .edition value
  | .package name => .package name
  | .imports file => .imports file
  | .option name value => .option name value
  | .field d => .field d.bare
  | .map d => .map d.bare
  | .oneof d => .oneof d.bare
  | .message name items _ => .message name (bareDecls items) 0
  | .enum d => .enum d.bare
  | .service d => .service d.bare
  | .extend d => .extend d.bare

def bareDecls : List Decl → List Decl
  | [] => []
  | d :: rest => d.bare :: bareDecls rest

end

theorem bareDecls_eq : ∀ ds : List Decl, bareDecls ds = ds.map Decl.bare
  | [] => rfl
  | d :: ds => by rw [bareDecls, bareDecls_eq ds, List.map_cons]

namespace Meaning

/-- A meaning without places and lines. -/
def bare : Meaning → Meaning
  | token t => token t.bare
  | enumValue d => enumValue d.bare
  | rpc d => rpc d.bare
  | member d => member d.bare
  | decl d => decl d.bare
  | file ds => file (ds.map Decl.bare)
  | m => m

/-! ## What a construct takes from its parts -/

variable {parts : List Meaning}

@[simp]
theorem bare_text? (t : Terminal) (m : Meaning) : m.bare.text? t = m.text? t := by cases m <;> rfl

@[simp]
theorem bare_name? (m : Meaning) : m.bare.name? = m.name? := by cases m <;> rfl

@[simp]
theorem bare_value? (m : Meaning) : m.bare.value? = m.value? := by cases m <;> rfl

@[simp]
theorem bare_label? (m : Meaning) : m.bare.label? = m.label? := by cases m <;> rfl

@[simp]
theorem bare_options? (m : Meaning) : m.bare.options? = m.options? := by cases m <;> rfl

@[simp]
theorem bare_entry? (m : Meaning) : m.bare.entry? = m.entry? := by cases m <;> rfl

@[simp]
theorem bare_decl? (m : Meaning) : m.bare.decl? = m.decl?.map Decl.bare := by cases m <;> rfl

@[simp]
theorem bare_member? (m : Meaning) : m.bare.member? = m.member?.map FieldDecl.bare := by cases m <;> rfl

@[simp]
theorem bare_fieldDecl? (m : Meaning) : m.bare.fieldDecl? = m.fieldDecl?.map FieldDecl.bare := by
  cases m with
  | decl d => cases d <;> rfl
  | _ => rfl

/-- What is read off each part in turn is read off the bare parts. -/
theorem filterMap_bare {α : Type} {f : Meaning → Option α} (h : ∀ m : Meaning, f m.bare = f m) :
    (parts.map bare).filterMap f = parts.filterMap f := by
  rw [List.filterMap_map]
  exact congrArg (parts.filterMap ·) (funext h)

theorem findSome?_bare {α : Type} {f : Meaning → Option α} (h : ∀ m : Meaning, f m.bare = f m) :
    (parts.map bare).findSome? f = parts.findSome? f := by
  rw [List.findSome?_map]
  exact congrArg (parts.findSome? ·) (funext h)

theorem filterMap_bare_map {α : Type} {f : Meaning → Option α} {g : α → α} (h : ∀ m : Meaning, f m.bare = (f m).map g) :
    (parts.map bare).filterMap f = (parts.filterMap f).map g := by
  rw [List.filterMap_map, List.map_filterMap]
  exact congrArg (parts.filterMap ·) (funext h)

@[simp]
theorem firstText_bare (t : Terminal) : firstText t (parts.map bare) = firstText t parts := by
  rw [firstText, firstText, findSome?_bare (bare_text? t)]

@[simp]
theorem firstName_bare : firstName (parts.map bare) = firstName parts := by
  rw [firstName, firstName, findSome?_bare bare_name?]

@[simp]
theorem optionsOf_bare : optionsOf (parts.map bare) = optionsOf parts := by
  rw [optionsOf, optionsOf, findSome?_bare bare_options?]

@[simp]
theorem tagOf_bare (rule : Rule) : tagOf rule (parts.map bare) = tagOf rule parts := by
  rw [tagOf, tagOf, firstText_bare]

@[simp]
theorem optionsOfEntries_bare : optionsOfEntries (parts.map bare) = optionsOfEntries parts := by
  rw [optionsOfEntries, optionsOfEntries, filterMap_bare bare_entry?]

@[simp]
theorem joined_bare : joined (parts.map bare) = joined parts := by
  rw [joined, joined, List.flatMap_map]
  exact congrArg (parts.flatMap ·) (funext fun m => by cases m <;> rfl)

@[simp]
theorem rpcTypes_bare : ∀ parts : List Meaning, rpcTypes (parts.map bare) = rpcTypes parts
  | [] => rfl
  | m :: rest => by
    have ih := rpcTypes_bare rest
    cases m with
    | name s => exact congrArg ((s, false) :: ·) ih
    | stream =>
      cases rest with
      | nil => rfl
      | cons m rest =>
        cases m with
        | name s => exact congrArg ((s, true) :: ·) (rpcTypes_bare rest)
        | _ => exact ih
    | _ => exact ih

/-- A part that is not a token. -/
def isInner : Meaning → Bool
  | token _ => false
  | _ => true

theorem inner_eq : inner parts = (parts.find? isInner).getD nothing := by
  rw [inner]
  congr

theorem inner_bare : inner (parts.map bare) = (inner parts).bare := by
  have hinner : isInner ∘ bare = isInner := funext fun m => by cases m <;> rfl
  rw [inner_eq, inner_eq, List.find?_map, hinner]
  cases parts.find? isInner <;> rfl

theorem map_bind_pure {α β γ ε : Type} (x : Except ε α) (f : α → β) (g : β → γ) :
    (x >>= fun a => pure (f a)).map g = x >>= fun a => pure (g (f a)) := by cases x <;> rfl

/-- **A construct of bare parts means what the construct means, without lines.** -/
theorem ofParts_bare [CharacterNames] (rule : Rule) (line : Nat) (parts : List Meaning) :
    ofParts rule 0 (parts.map bare) = (ofParts rule line parts).map bare := by
  cases rule
  case syntaxDecl | editionDecl | importDecl | field | oneofField | mapField | strings =>
    simp only [ofParts, map_bind_pure, tagOf_bare, firstText_bare, firstName_bare, optionsOf_bare,
      filterMap_bare (bare_text? _), findSome?_bare bare_label?]
    rfl
  case statement | messageItem | oneofItem | enumItem | serviceItem | extendItem | aggregateValue =>
    exact congrArg Except.ok inner_bare
  case optionName => exact congrArg (Except.ok <| name <| Text.join "." ·) (filterMap_bare bare_name?)
  case fullIdent => exact congrArg (Except.ok <| name <| Text.join "." ·) (filterMap_bare (bare_text? .ident))
  case listValue => exact congrArg (Except.ok <| value <| .list ·) (filterMap_bare bare_value?)
  case optionDecl | aggregateEntry | fieldOption =>
    simp only [ofParts, firstName_bare, findSome?_bare bare_value?]
    rfl
  case aggregate | fieldOptions =>
    simp only [ofParts, optionsOfEntries_bare]
    rfl
  case file | message | oneof =>
    simp only [ofParts, Except.map, bare, Decl.bare, OneofDecl.bare, firstText_bare, filterMap_bare_map bare_decl?,
      filterMap_bare_map bare_member?, bareDecls_eq]
  case extend =>
    simp only [ofParts, Except.map, bare, Decl.bare, ExtendDecl.bare, firstName_bare, filterMap_bare_map bare_fieldDecl?]
  case enum =>
    simp only [ofParts, Except.map, bare, Decl.bare, EnumDecl.bare, firstText_bare]
    rw [filterMap_bare_map fun m => by cases m <;> rfl]
  case service =>
    simp only [ofParts, Except.map, bare, Decl.bare, ServiceDecl.bare, firstText_bare]
    rw [filterMap_bare_map fun m => by cases m <;> rfl]
  case enumValue =>
    simp only [ofParts, Except.map, bare, EnumValueDecl.bare, firstText_bare]
    rw [findSome?_bare fun m => by cases m <;> rfl]
  case rpc =>
    simp only [ofParts, Except.map, bare, RpcDecl.bare, rpcDecl, rpcTypes_bare, firstText_bare]
  case constant =>
    simp only [ofParts, inner_bare]
    cases inner parts <;> rfl
  case number | enumNumber =>
    simp only [ofParts, joined_bare]
    split <;> rfl
  case optionPart | aggregateKey | label | typeRef =>
    have hname := @firstName_bare parts
    rcases parts with _ | ⟨m, _ | ⟨m', rest⟩⟩
    · rfl
    · cases m <;> rfl
    · cases m <;> first
        | rfl
        | exact congrArg (Except.ok <| name ·) hname
        | exact congrArg (Except.ok <| name <| "." ++ ·) firstName_bare
  case packageDecl => exact congrArg (Except.ok <| decl <| .package ·) firstName_bare
  case extensionName => exact congrArg (Except.ok <| name <| "(" ++ · ++ ")") firstName_bare
  case empty | importKind | reserved | extensions | tagRanges | tagRange | rangeEnd | fieldNames | rpcBody | stream =>
    rfl

end Meaning

/-! ## Trees -/

mutual

theorem Tree.first?_bare : ∀ t : Tree, t.bare.first? = t.first?.map Token.bare
  | .leaf _ => rfl
  | .node _ children => firstToken?_bare children

theorem firstToken?_bare : ∀ ts : List Tree, firstToken? (bareTrees ts) = (firstToken? ts).map Token.bare
  | [] => rfl
  | t :: ts => by
    rw [bareTrees, firstToken?, firstToken?, t.first?_bare, firstToken?_bare ts]
    cases t.first? <;> rfl

end

mutual

theorem Tree.tokens_bare : ∀ t : Tree, t.bare.tokens = t.tokens.map Token.bare
  | .leaf _ => rfl
  | .node _ children => tokensAll_bare children

theorem tokensAll_bare : ∀ ts : List Tree, tokensAll (bareTrees ts) = (tokensAll ts).map Token.bare
  | [] => rfl
  | t :: ts => by rw [bareTrees, tokensAll, tokensAll, List.map_append, t.tokens_bare, tokensAll_bare ts]

end

theorem firstLine_bare (ts : List Tree) : firstLine (bareTrees ts) = 0 := by
  rw [firstLine, firstToken?_bare]
  cases firstToken? ts <;> rfl

mutual

/-- **A bare tree means what the tree means, without lines.** -/
theorem Tree.meaning_bare [CharacterNames] : ∀ t : Tree, t.bare.meaning = t.meaning.map Meaning.bare
  | .leaf t => rfl
  | .node rule children => by
    rw [Tree.bare, Tree.meaning, Tree.meaning, meaningAll_bare children, firstLine_bare]
    cases meaningAll children with
    | error fault => rfl
    | ok parts => exact Meaning.ofParts_bare rule _ parts

theorem meaningAll_bare [CharacterNames] : ∀ ts : List Tree, meaningAll (bareTrees ts) = (meaningAll ts).map
    (List.map Meaning.bare)
  | [] => rfl
  | t :: ts => by
    rw [bareTrees, meaningAll, meaningAll, t.meaning_bare, meaningAll_bare ts]
    cases t.meaning with
    | error fault => rfl
    | ok m => cases meaningAll ts <;> rfl

end

/-- The declarations of what the trees of a text mean. -/
def Meaning.decls : Meaning → List Decl
  | file ds => ds
  | _ => []

theorem declarations_ok [CharacterNames] (forest : List Tree) (comments : List Comment) : declarations
    (.ok (forest, comments)) = match meaningAll forest with
    | .error fault => .error (.literal fault)
    | .ok meanings => .ok (meanings.flatMap Meaning.decls, comments) := rfl

/-- **Bare trees declare what the trees declare, without lines.** -/
theorem declarations_bare [CharacterNames] (forest : List Tree) (comments comments' : List Comment) :
    (declarations (.ok (bareTrees forest, comments'))).map (·.1) =
      (declarations (.ok (forest, comments))).map (·.1.map Decl.bare) := by
  rw [declarations_ok, declarations_ok, meaningAll_bare]
  cases meaningAll forest with
  | error fault => rfl
  | ok meanings =>
    refine congrArg Except.ok ?_
    show (meanings.map Meaning.bare).flatMap Meaning.decls = (meanings.flatMap Meaning.decls).map Decl.bare
    rw [List.flatMap_map, List.map_flatMap]
    exact congrArg (meanings.flatMap ·) (funext fun m => by cases m <;> rfl)

end ProtoBind.Source
