/-
What a message declaration becomes.

The items of a message, flattened, are its pieces: each field, those of a
oneof group in its place, each map, and each message and enum in it
(`pieces`). A node realizes a declared message when it has the declared groups
and its children are the pieces, one for one and in order, each realized in
turn (`Realizes`). In every graph that sources are loaded to each message that
they declare is realized (`loadSources_realized`). What stands in a declared
message comes from its declaration alone, and this passes down from the file
to the messages in messages (`Isolated`).
-/
import ProtoBind.Proofs.Schema.Printed
import ProtoBind.Proofs.Schema.Unordered

namespace ProtoBind.Schema

open Schema.Graph Load
open Source (Decl)

/-! ## Pieces -/

/-- A part of a message that becomes a node of its own. -/
inductive Piece
  | field (decl : Source.FieldDecl) (oneof : Option String)
  | map (decl : Source.MapDecl)
  | message (name : String) (items : List Decl) (line : Nat)
  | enum (decl : Source.EnumDecl)

/-- The pieces of an item. Options, reserved names and extensions are none. -/
def itemPieces : Decl → List Piece
  | .field f => [.field f none]
  | .map m => [.map m]
  | .oneof o => o.fields.map fun f => .field f (some o.name)
  | .message name items line => [.message name items line]
  | .enum e => [.enum e]
  | _ => []

def pieces (items : List Decl) : List Piece := items.flatMap itemPieces

theorem pieces_cons (item : Decl) (rest : List Decl) : pieces (item :: rest) = itemPieces item ++ pieces rest := rfl

/-- The oneof groups among the items of a message, each with the names of its fields. -/
def declaredGroups (items : List Decl) : List (String × List String) :=
  items.filterMap fun
    | .oneof o => some (o.name, o.fields.map (·.name))
    | _ => none

/-- A leaf is the type of a name: the scalar kind of the name, if it is one, or else a reference to it. -/
def Leaf.Spells (leaf : Leaf) (name : String) : Prop :=
  match Scalar.ofName? name with
  | some k => leaf = .scalar k
  | none => ∃ target, leaf = .reference ⟨name, target⟩

/-- The field is as it was declared, in a group or in none. -/
structure Field.Declared (f : Field) (decl : Source.FieldDecl) (oneof : Option String) : Prop where
  tag : f.tag = decl.tag
  type : ∃ leaf : Leaf, leaf.Spells decl.typeName ∧
    f.type = if decl.label = some .repeated then .repeated leaf else .single leaf
  oneof : f.oneof = oneof
  label : f.label = decl.label
  default : f.explicitDefault = decl.options.lookup "default"
  packed : f.packed = (decl.options.lookup "packed").map fun v => v.plainText.toOption == some "true"
  extendee : f.extendee = none

/-- The field is the map that was declared. -/
structure Field.DeclaredMap (f : Field) (decl : Source.MapDecl) : Prop where
  tag : f.tag = decl.tag
  type : ∃ leaf : Leaf, leaf.Spells decl.valueType ∧ f.type = .map decl.keyType leaf
  oneof : f.oneof = none
  extendee : f.extendee = none

/-- Where a declaration stands in its file. -/
structure Node.DeclaredAt (n : Node) (file name : String) (line : Nat) : Prop where
  name : n.name = name
  file : n.file = some file
  line : n.line = some line

/-- The node is what the piece declares, and its children are what the pieces of the piece declare. -/
inductive Realizes (g : Graph) (file : String) : Node → Piece → Prop
  | field {n : Node} {f : Field} {decl : Source.FieldDecl} {oneof : Option String}
      (place : n.DeclaredAt file decl.name decl.line) (body : n.body = .field f) (declared : f.Declared decl oneof) :
      Realizes g file n (.field decl oneof)
  | map {n : Node} {f : Field} {decl : Source.MapDecl} (place : n.DeclaredAt file decl.name decl.line)
      (body : n.body = .field f) (declared : f.DeclaredMap decl) : Realizes g file n (.map decl)
  | enum {n : Node} {values : List EnumValue} {decl : Source.EnumDecl}
      (place : n.DeclaredAt file decl.name decl.line) (body : n.body = .enum values)
      (declared : values.map (fun v => (v.name, v.number)) = decl.values.map fun v => (v.name, v.number)) :
      Realizes g file n (.enum decl)
  | message {n : Node} {dialect name : String} {groups : List OneofGroup} {items : List Decl} {line : Nat}
      (place : n.DeclaredAt file name line) (body : n.body = .message dialect groups)
      (declared : groups.map (fun group => (group.name, group.fields)) = declaredGroups items)
      (children : List.Forall₂ (Realizes g file) (g.childrenOf n) (pieces items)) :
      Realizes g file n (.message name items line)

/-- The declarations of the sources are in the graph, each once, and its messages are tidy. -/
structure Graph.Realized [Source.CharacterNames] (g : Graph) (sources : Sources) : Prop where
  /-- Every source was read, and each message at its top is realized in its package. -/
  declared : ∀ p ∈ sourceMap sources, ∃ f, SchemaFile.ofText p.1 p.2 = some f ∧
    ∀ name items line, Decl.message name items line ∈ f.decls →
      ∃ n ∈ g.nodes, n.fullName = childName f.space name ∧ Realizes g p.1 n (.message name items line)
  names : g.fullNames.Nodup
  /-- Tags are unique in a message, and its groups list exactly the fields that name a group. -/
  tidy : ∀ n ∈ g.nodes, n.kind = .message →
    Tidy ((g.childrenOf n).filterMap fun c => c.field?.map (c.name, ·)) n.oneofs

/-! ## Entries of a declaration -/

namespace Load

/-- What a piece becomes. -/
def pieceEntry (c : Context) : Piece → Entry
  | .field decl oneof => fieldEntry c decl oneof none
  | .map decl => mapEntry c decl
  | .message name items line => messageEntry c name line (groupsOf c items)
  | .enum decl => enumEntry c decl

theorem groupsOf_declared (c : Context) (items : List Decl) :
    (groupsOf c items).map (fun group => (group.name, group.fields)) = declaredGroups items := by
  fun_induction groupsOf c items with
  | case1 => rfl
  | case2 o rest ih =>
    rw [List.map_cons, ih]
    rfl
  | case3 item rest hne ih =>
    rw [ih, declaredGroups, declaredGroups, List.filterMap_cons]
    split <;> simp_all

/-- Entries of a file that stand apart from all others in a list: what stands in one of them is one of them. -/
structure Isolated (all : List Listed) (c : Context) (space : String) (block : List Listed) : Prop where
  belongs : ∀ x ∈ block, Belongs c space block x
  names : (block.map (·.1)).Nodup
  outer : space ∉ block.map (·.1)
  named : "" ∉ block.map (·.1)
  mem : ∀ x ∈ block, x ∈ all
  alone : ∀ name ∈ block.map (·.1), all.filter (IsUnder name) = block.filter (IsUnder name)

variable {all l m block : List Listed} {c : Context} {space name : String} {items : List Decl} {line : Nat}

/-- Nothing stands in what is neither one of the entries nor around them. -/
theorem filter_outside (hl : ∀ x ∈ l, Belongs c space l x) (hspace : name ≠ space) (hname : name ∉ l.map (·.1)) :
    l.filter (IsUnder name) = [] := by
  refine List.filter_eq_nil_iff.mpr fun x hx => ?_
  rw [decide_eq_true_iff]
  intro hu
  obtain ⟨parent, hparent, hin⟩ := (hl x hx).under
  obtain rfl : name = parent := childName_left (hu.2.symm.trans hparent)
  exact hin.elim hspace hname

namespace Isolated

theorem notMem_left (h : Isolated all c space (l ++ m)) (hname : name ∈ m.map (·.1)) : name ∉ l.map (·.1) := by
  have hnames := h.names
  rw [List.map_append] at hnames
  exact fun hin => (List.nodup_append.mp hnames).2.2 name hin name hname rfl

theorem notMem_right (h : Isolated all c space (l ++ m)) (hname : name ∈ l.map (·.1)) : name ∉ m.map (·.1) :=
  fun hin => h.notMem_left hin hname

theorem ne_space (h : Isolated all c space block) (hname : name ∈ block.map (·.1)) : name ≠ space :=
  fun he => h.outer (he ▸ hname)

theorem left (h : Isolated all c space (l ++ m)) (hl : ∀ x ∈ l, Belongs c space l x)
    (hm : ∀ x ∈ m, Belongs c space m x) : Isolated all c space l where
  belongs := hl
  names := by
    have hnames := h.names
    rw [List.map_append] at hnames
    exact hnames.of_append_left
  outer hin := h.outer (by rw [List.map_append]; exact List.mem_append_left _ hin)
  named hin := h.named (by rw [List.map_append]; exact List.mem_append_left _ hin)
  mem x hx := h.mem x (List.mem_append_left _ hx)
  alone name hname := by
    have hin : name ∈ (l ++ m).map (·.1) := by rw [List.map_append]; exact List.mem_append_left _ hname
    rw [h.alone name hin, List.filter_append, filter_outside hm (h.ne_space hin) (h.notMem_right hname),
      List.append_nil]

theorem right (h : Isolated all c space (l ++ m)) (hl : ∀ x ∈ l, Belongs c space l x)
    (hm : ∀ x ∈ m, Belongs c space m x) : Isolated all c space m where
  belongs := hm
  names := by
    have hnames := h.names
    rw [List.map_append] at hnames
    exact hnames.of_append_right
  outer hin := h.outer (by rw [List.map_append]; exact List.mem_append_right _ hin)
  named hin := h.named (by rw [List.map_append]; exact List.mem_append_right _ hin)
  mem x hx := h.mem x (List.mem_append_right _ hx)
  alone name hname := by
    have hin : name ∈ (l ++ m).map (·.1) := by rw [List.map_append]; exact List.mem_append_right _ hname
    rw [h.alone name hin, List.filter_append, filter_outside hl (h.ne_space hin) (h.notMem_left hname),
      List.nil_append]

theorem tail {e : Entry} (h : Isolated all c space (e.under space :: m)) (hm : ∀ x ∈ m, Belongs c space m x) :
    Isolated all c space m := by
  have hfirst := h.belongs _ List.mem_cons_self
  refine h.right (l := [e.under space]) (fun x hx => ?_) hm
  obtain rfl := List.mem_singleton.mp hx
  exact belongs_under hfirst.file hfirst.kind hfirst.bare

/-- The items of a message stand by themselves. -/
theorem inside (h : Isolated all c space (messageContents c space (.message name items line))) :
    Isolated all c (childName space name) (itemsContents c (childName space name) items) := by
  rw [messageContents] at h
  have hnames := List.nodup_cons.mp h.names
  refine ⟨itemsContents_belongs, hnames.2, hnames.1, fun hin => h.named (List.mem_cons_of_mem _ hin),
    fun x hx => h.mem x (List.mem_cons_of_mem _ hx), fun inner hinner => ?_⟩
  have hin := List.mem_cons_of_mem (childName space name) hinner
  rw [h.alone inner hin, List.filter_cons_of_neg]
  rw [decide_eq_true_iff]
  exact fun hu => h.ne_space hin (childName_left (hu.2.symm : childName inner name = childName space name))

/-- A message does not stand in itself. -/
theorem children (h : Isolated all c space (messageContents c space (.message name items line))) :
    all.filter (IsUnder (childName space name)) =
      (itemsContents c (childName space name) items).filter (IsUnder (childName space name)) := by
  rw [messageContents] at h
  have hin := List.mem_cons_self (a := childName space name)
    (l := (itemsContents c (childName space name) items).map (·.1))
  rw [h.alone _ hin, List.filter_cons_of_neg]
  rw [decide_eq_true_iff]
  exact fun hu => h.ne_space hin
    (childName_left (hu.2.symm : childName (childName space name) name = childName space name))

end Isolated

theorem filter_cons_under {e : Entry} (h : (e.under space).1 ≠ "") :
    (e.under space :: l).filter (IsUnder space) = e.under space :: l.filter (IsUnder space) :=
  List.filter_cons_of_pos (decide_eq_true ⟨h, rfl⟩)

/-- Of the entries of some items, those right below are the pieces. -/
theorem itemsContents_children : ∀ {items : List Decl}, space ∉ (itemsContents c space items).map (·.1) →
    "" ∉ (itemsContents c space items).map (·.1) →
    (itemsContents c space items).filter (IsUnder space) = (pieces items).map fun p => (pieceEntry c p).under space
  | [], _, _ => by simp [itemsContents, pieces]
  | .field f :: rest, houter, hnamed | .map m :: rest, houter, hnamed | .enum e :: rest, houter, hnamed => by
    rw [itemsContents] at houter hnamed ⊢
    rw [List.map_cons, List.mem_cons, not_or] at houter hnamed
    rw [filter_cons_under (Ne.symm hnamed.1), itemsContents_children houter.2 hnamed.2]
    rfl
  | .oneof o :: rest, houter, hnamed => by
    rw [itemsContents] at houter hnamed ⊢
    rw [List.map_append, List.mem_append, not_or] at houter hnamed
    have hall : ∀ x ∈ o.fields.map fun f => (fieldEntry c f (some o.name) none).under space,
        decide (IsUnder space x) = true := by
      intro x hx
      have hne : x.1 ≠ "" := fun he => hnamed.1 (he ▸ List.mem_map_of_mem hx)
      obtain ⟨f, -, rfl⟩ := List.mem_map.mp hx
      exact decide_eq_true ⟨hne, rfl⟩
    rw [List.filter_append, List.filter_eq_self.mpr hall, itemsContents_children houter.2 hnamed.2, pieces_cons,
      List.map_append, itemPieces, List.map_map]
    rfl
  | .message name inner line :: rest, houter, hnamed => by
    rw [itemsContents] at houter hnamed ⊢
    rw [List.map_append, List.mem_append, not_or] at houter hnamed
    rw [messageContents, List.map_cons, List.mem_cons, not_or] at houter hnamed
    have hinner : (itemsContents c (childName space name) inner).filter (IsUnder space) = [] :=
      filter_outside itemsContents_belongs houter.1.1 houter.1.2
    rw [List.filter_append, messageContents, filter_cons_under (Ne.symm hnamed.1.1), hinner,
      itemsContents_children houter.2 hnamed.2]
    rfl
  | .dialect _ :: rest, houter, hnamed | .edition _ :: rest, houter, hnamed | .package _ :: rest, houter, hnamed
  | .imports _ :: rest, houter, hnamed | .option _ _ :: rest, houter, hnamed
  | .service _ :: rest, houter, hnamed | .extend _ :: rest, houter, hnamed => by
    simp only [itemsContents] at houter hnamed ⊢
    exact itemsContents_children houter hnamed

end Load

/-! ## Nodes of a resolved graph -/

namespace Graph

variable {g₀ g : Graph} {n₀ n : Node}

theorem Origin.body_field (h : Origin g₀ n₀ n) {f₀ : Field} (hb : n₀.body = .field f₀) :
    ∃ v, n.body = .field { g₀.resolvedField n₀.parent f₀ with default := v } := by
  have hk : n.body.kind = n₀.body.kind := h.kind
  rw [hb] at hk
  cases hb' : n.body with
  | field f =>
    obtain ⟨f₁, v, hb₁, rfl, -⟩ := h.field hb'
    cases hb.symm.trans hb₁
    exact ⟨v, rfl⟩
  | _ => rw [hb'] at hk; cases hk

theorem Origin.body_other (h : Origin g₀ n₀ n) (hf : n₀.kind ≠ .field) (hm : n₀.kind ≠ .method) : n.body = n₀.body :=
  h.other (h.kind ▸ hf) (h.kind ▸ hm)

/-- The children of a resolved node are those that it had, resolved. -/
theorem children_resolved (h : List.Forall₂ (Resolved g₀) g₀.nodes g.nodes) (hn : Resolved g₀ n₀ n) :
    List.Forall₂ (Resolved g₀) (g₀.childrenOf n₀) (g.childrenOf n) := by
  have hchildren : n.children = n₀.children := congrArg Place.children hn.place
  have hnode : Relator.LiftFun Eq (Option.Rel (Resolved g₀)) g₀.node? g.node? := by
    rintro i _ rfl
    cases hi : g₀.node? i with
    | some c₀ =>
      obtain ⟨c, hc, hr⟩ := forall₂_getElem? h hi
      rw [show g.node? i = some c from hc]
      exact .some hr
    | none =>
      have hlen := List.getElem?_eq_none_iff.mp hi
      rw [show g.node? i = none from List.getElem?_eq_none (h.length_eq ▸ hlen)]
      exact .none
  rw [childrenOf, childrenOf, hchildren]
  exact List.rel_filterMap hnode (List.forall₂_eq_eq_eq ▸ rfl)

end Graph

/-! ## Declarations and their nodes -/

namespace Load

variable {g₀ g : Graph} {n : Node} {c : Context} {space name : String} {items : List Decl} {line : Nat}

/-- The node is what the entry of a piece was resolved to. -/
def ComesFrom (g₀ : Graph) (c : Context) (space : String) (n : Node) (p : Piece) : Prop :=
  ∃ n₀ ∈ g₀.nodes, Resolved g₀ n₀ n ∧ (n₀.fullName, n₀.toEntry) = (pieceEntry c p).under space

theorem spells_resolved (g : Graph) (scope : Option Nat) (name : String) :
    (g.resolveLeaf scope (.ofName name)).Spells name := by
  unfold Leaf.Spells Leaf.ofName
  cases hk : Scalar.ofName? name with
  | some k => rfl
  | none => exact ⟨_, rfl⟩

theorem field_declared (g : Graph) (scope : Option Nat) (decl : Source.FieldDecl) (oneof : Option String) {f : Field}
    (v : Value) (hf : (fieldEntry c decl oneof none).body = .field f) :
    Field.Declared { g.resolvedField scope f with default := v } decl oneof := by
  cases hf
  refine ⟨rfl, ⟨_, spells_resolved g scope decl.typeName, ?_⟩, rfl, rfl, rfl, rfl, rfl⟩
  simp only [resolvedField]
  split <;> rfl

theorem field_declaredMap (g : Graph) (scope : Option Nat) (decl : Source.MapDecl) {f : Field} (v : Value)
    (hf : (mapEntry c decl).body = .field f) :
    Field.DeclaredMap { g.resolvedField scope f with default := v } decl := by
  cases hf
  exact ⟨rfl, ⟨_, spells_resolved g scope decl.valueType, rfl⟩, rfl, rfl⟩

theorem declaredAt_of_entry {n₀ : Node} {e : Entry} {file : String} (h : Resolved g₀ n₀ n) (he : n₀.toEntry = e)
    (hname : e.name = name) (hfile : e.file = some file) (hline : e.line = some line) : n.DeclaredAt file name line where
  name := by rw [h.entry, he, hname]
  file := by rw [h.entry, he, hfile]
  line := by rw [h.entry, he, hline]

theorem field_realizes {decl : Source.FieldDecl} {oneof : Option String}
    (hn : ComesFrom g₀ c space n (.field decl oneof)) : Realizes g c.file n (.field decl oneof) := by
  obtain ⟨n₀, -, ho, he⟩ := hn
  have hentry : n₀.toEntry = fieldEntry c decl oneof none := congrArg Prod.snd he
  obtain ⟨v, hbody⟩ := ho.body_field (congrArg Entry.body hentry)
  exact .field (declaredAt_of_entry ho hentry rfl rfl rfl) hbody (field_declared (c := c) g₀ n₀.parent decl oneof v rfl)

theorem map_realizes {decl : Source.MapDecl} (hn : ComesFrom g₀ c space n (.map decl)) :
    Realizes g c.file n (.map decl) := by
  obtain ⟨n₀, -, ho, he⟩ := hn
  have hentry : n₀.toEntry = mapEntry c decl := congrArg Prod.snd he
  obtain ⟨v, hbody⟩ := ho.body_field (congrArg Entry.body hentry)
  exact .map (declaredAt_of_entry ho hentry rfl rfl rfl) hbody (field_declaredMap (c := c) g₀ n₀.parent decl v rfl)

theorem enum_realizes {decl : Source.EnumDecl} (hn : ComesFrom g₀ c space n (.enum decl)) :
    Realizes g c.file n (.enum decl) := by
  obtain ⟨n₀, -, ho, he⟩ := hn
  have hentry : n₀.toEntry = enumEntry c decl := congrArg Prod.snd he
  have hbody : n₀.body = (enumEntry c decl).body := congrArg Entry.body hentry
  have hsame := ho.body_other (by rw [Node.kind, hbody]; rintro ⟨⟩) (by rw [Node.kind, hbody]; rintro ⟨⟩)
  exact .enum (declaredAt_of_entry ho hentry rfl rfl rfl) (hsame.trans hbody) (by rw [List.map_map]; rfl)

/-- A message is realized when its pieces are. -/
theorem message_realizes (h₀ : g₀.Arena) (hr : List.Forall₂ (Resolved g₀) g₀.nodes g.nodes)
    (hs : Isolated g₀.listing c space (messageContents c space (.message name items line)))
    (hpieces : ∀ p ∈ pieces items, ∀ n, ComesFrom g₀ c (childName space name) n p → Realizes g c.file n p)
    (hn : ComesFrom g₀ c space n (.message name items line)) : Realizes g c.file n (.message name items line) := by
  obtain ⟨n₀, hn₀, ho, he⟩ := hn
  obtain ⟨hfull, hentry⟩ := Prod.mk.inj he
  have hbody : n₀.body = .message c.dialect (groupsOf c items) := congrArg Entry.body hentry
  have hplace : n.DeclaredAt c.file name line := declaredAt_of_entry ho hentry rfl rfl rfl
  have hsame : n.body = n₀.body :=
    ho.body_other (by rw [Node.kind, hbody]; rintro ⟨⟩) (by rw [Node.kind, hbody]; rintro ⟨⟩)
  -- The entries under the message are its pieces, and so are the children of the node.
  have hlisted : (g₀.childrenOf n₀).map (fun k => (k.fullName, k.toEntry)) =
      (pieces items).map fun p => (pieceEntry c p).under (childName space name) := by
    rw [h₀.children_listing hn₀, show n₀.fullName = childName space name from hfull, hs.children]
    exact itemsContents_children hs.inside.outer hs.inside.named
  have hchildren := forall₂_with_mem (forall₂_comp (children_resolved hr ho) (forall₂_of_map_eq hlisted))
  refine .message hplace (hsame.trans hbody) (groupsOf_declared c items) (hchildren.imp fun k p h => ?_)
  obtain ⟨-, hp, k₀, hk₀, hko, hke⟩ := h
  exact hpieces p hp k ⟨k₀, ((h₀.mem_childrenOf hn₀).mp hk₀).1, hko, hke⟩

/-- **What the items of a message become realizes them.** -/
theorem items_realize (h₀ : g₀.Arena) (hr : List.Forall₂ (Resolved g₀) g₀.nodes g.nodes) :
    ∀ {space : String} {items : List Decl}, Isolated g₀.listing c space (itemsContents c space items) →
      ∀ p ∈ pieces items, ∀ n, ComesFrom g₀ c space n p → Realizes g c.file n p
  | _, [], _, p, hp, _, _ => by cases hp
  | space, .field f :: rest, hs, p, hp, n, hn => by
    rw [itemsContents] at hs
    rcases List.mem_cons.mp hp with rfl | hp
    · exact field_realizes hn
    · exact items_realize h₀ hr (hs.tail itemsContents_belongs) p hp n hn
  | space, .map m :: rest, hs, p, hp, n, hn => by
    rw [itemsContents] at hs
    rcases List.mem_cons.mp hp with rfl | hp
    · exact map_realizes hn
    · exact items_realize h₀ hr (hs.tail itemsContents_belongs) p hp n hn
  | space, .enum e :: rest, hs, p, hp, n, hn => by
    rw [itemsContents] at hs
    rcases List.mem_cons.mp hp with rfl | hp
    · exact enum_realizes hn
    · exact items_realize h₀ hr (hs.tail itemsContents_belongs) p hp n hn
  | space, .oneof o :: rest, hs, p, hp, n, hn => by
    rw [itemsContents] at hs
    have hmembers : ∀ x ∈ o.fields.map fun f => (fieldEntry c f (some o.name) none).under space, Belongs c space
        (o.fields.map fun f => (fieldEntry c f (some o.name) none).under space) x := by
      intro x hx
      obtain ⟨f, -, rfl⟩ := List.mem_map.mp hx
      exact belongs_under rfl (by rintro ⟨⟩) rfl
    rcases List.mem_append.mp hp with hp | hp
    · obtain ⟨f, -, rfl⟩ := List.mem_map.mp hp
      exact field_realizes hn
    · exact items_realize h₀ hr (hs.right hmembers itemsContents_belongs) p hp n hn
  | space, .message name inner line :: rest, hs, p, hp, n, hn => by
    rw [itemsContents] at hs
    have hfirst := hs.left messageContents_belongs itemsContents_belongs
    rcases List.mem_append.mp hp with hp | hp
    · obtain rfl := List.mem_singleton.mp hp
      exact message_realizes h₀ hr hfirst (items_realize h₀ hr hfirst.inside) hn
    · exact items_realize h₀ hr (hs.right messageContents_belongs itemsContents_belongs) p hp n hn
  | space, .dialect _ :: rest, hs, p, hp, n, hn | space, .edition _ :: rest, hs, p, hp, n, hn
  | space, .package _ :: rest, hs, p, hp, n, hn | space, .imports _ :: rest, hs, p, hp, n, hn
  | space, .option _ _ :: rest, hs, p, hp, n, hn | space, .service _ :: rest, hs, p, hp, n, hn
  | space, .extend _ :: rest, hs, p, hp, n, hn => by
    simp only [itemsContents] at hs
    exact items_realize h₀ hr hs p hp n hn

/-! ## Files -/

theorem Isolated.ofDecl {decls : List Decl} : Isolated g₀.listing c space (decls.flatMap (declContents c space)) →
    ∀ d ∈ decls, Isolated g₀.listing c space (declContents c space d) := by
  induction decls with
  | nil => simp
  | cons d rest ih =>
    intro h
    rw [List.flatMap_cons] at h
    exact List.forall_mem_cons.mpr
      ⟨h.left declContents_belongs flatMap_belongs, ih (h.right declContents_belongs flatMap_belongs)⟩

end Load

section Files

variable {find : String → Option String} {files : List SchemaFile} {f : SchemaFile} {s : Loader}

theorem SchemaFile.Valid.space_notMem (h : f.Valid) : f.space ∉ f.contents.map (·.1) := by
  intro hin
  obtain ⟨x, hx, hname⟩ := List.mem_map.mp hin
  obtain hspace | hspace := @foldl_childName f.parts ""
  · exact h.named x hx (hname.trans hspace)
  · obtain ⟨p, hp, he⟩ := List.mem_map.mp hspace
    exact h.packages x hx p hp (hname.trans he.symm)

/-- The contents of a file stand apart from all else in the graph. -/
theorem Loader.Holds.isolated [Source.CharacterNames] (h : s.Holds files) (ho : Ordered find files) (hf : f ∈ files) :
    Isolated s.graph.listing f.context f.space f.contents where
  belongs := SchemaFile.contents_belongs
  names := (ho.read f hf).2.names
  outer := (ho.read f hf).2.space_notMem
  named hin := by
    obtain ⟨x, hx, hname⟩ := List.mem_map.mp hin
    exact (ho.read f hf).2.named x hx hname
  mem x hx := h.mem.mpr (.inr ⟨f, hf, .inr hx⟩)
  alone name hname := by
    obtain ⟨x, hx, rfl⟩ := List.mem_map.mp hname
    have hbelongs := SchemaFile.contents_belongs x hx
    obtain ⟨file, hfile, hall⟩ := h.inside x (h.mem.mpr (.inr ⟨f, hf, .inr hx⟩)) hbelongs.kind
    obtain rfl : f.name = file := Option.some.inj (hbelongs.file.symm.trans hfile)
    rw [filter_inside hall, h.order, ho.filter_name, if_pos (List.mem_map_of_mem hf), (ho.read f hf).1]
    simp

/-- A message of a file has its node. -/
theorem Loader.Holds.realizes [Source.CharacterNames] {g : Graph} {name : String} {items : List Decl} {line : Nat}
    (h : s.Holds files)
    (ho : Ordered find files) (hr : List.Forall₂ (Resolved s.graph) s.graph.nodes g.nodes) (hf : f ∈ files)
    (hd : Decl.message name items line ∈ f.decls) : ∃ n ∈ g.nodes, n.fullName = childName f.space name ∧
      Realizes g f.name n (.message name items line) := by
  have hisolated := (h.isolated ho hf).ofDecl _ hd
  rw [declContents] at hisolated
  have hin : (messageEntry f.context name line (groupsOf f.context items)).under f.space ∈ s.graph.listing :=
    hisolated.mem _ (by rw [messageContents]; exact List.mem_cons_self)
  obtain ⟨n₀, hn₀, hname, hentry⟩ := mem_listing.mp hin
  obtain ⟨n, hn, hres⟩ := forall₂_mem hr hn₀
  refine ⟨n, hn, hres.fullName.trans hname, ?_⟩
  exact message_realizes h.arena hr hisolated (items_realize h.arena hr hisolated.inside)
    ⟨n₀, hn₀, hres, Prod.ext hname hentry⟩

end Files

/-- **Declarations become nodes without loss, duplication or reordering.** In the graph of some sources each message
that a source declares is a node whose children are the pieces of the message in their order, as they were declared;
no two nodes have one name, no two fields of a message share a tag, and its groups list exactly the fields in them. -/
theorem loadSources_realized [Source.CharacterNames] {sources : Sources} {g : Graph} {s : Loader}
    (hload : loadSources sources .empty = .ok g s) : g.Realized sources := by
  obtain ⟨s₀, heach, missing, hf⟩ := loadSources_eq_ok.mp ⟨s, hload⟩
  obtain ⟨files, hs, ho, hall⟩ := loadEach_sound heach
  obtain ⟨hr, -⟩ := finalize_resolved hf
  have hfinal := loadSources_final empty_formed hload
  refine ⟨fun p hp => ?_, hfinal.toArena.fullNames_nodup, fun n hn hk => ?_⟩
  · obtain ⟨f, hfm, hname, hread⟩ := ho.present (hall p hp)
    have htext : textOf sources p.1 = some p.2 := Entries.lookup_of_mem (Entries.keys_ofList_nodup sources) hp
    rw [fileAt, htext, Option.bind_some] at hread
    exact ⟨f, hread, fun name items line hd => hname ▸ hs.realizes ho hr hfm hd⟩
  · rw [← hfinal.toArena.fieldsUnder hn]
    exact hfinal.tidy n.index n (hfinal.toArena.node?_of_mem hn) hk

/-- A message with fields of its own and a group of two. -/
def groupedFiles : List (String × List Decl) :=
  [("a.proto", [.message "P" [.field ⟨none, "int32", "x", 1, [], 1⟩] 1,
    .message "M" [.field ⟨none, "P", "p", 1, [], 1⟩, .field ⟨none, "string", "s", 2, [], 1⟩,
      .oneof ⟨"c", [⟨none, "P", "a", 3, [], 1⟩, ⟨none, "int32", "b", 4, [], 1⟩], 1⟩] 1])]

def grouped : Sources := printedSources groupedFiles

theorem grouped_loads : succeedsWith (loadSources grouped) .empty (fun _ => true) = true := by
  unfold loadSources loadOne
  rw [Load.load_eq_known groupedFiles (by decide +kernel)]
  decide +kernel

theorem loadSources_realized_grouped : ∃ g s, loadSources grouped .empty = .ok g s ∧ g.Realized grouped := by
  obtain ⟨g, s, hload, -⟩ := exists_of_succeedsWith grouped_loads
  exact ⟨g, s, hload, loadSources_realized hload⟩

end ProtoBind.Schema
