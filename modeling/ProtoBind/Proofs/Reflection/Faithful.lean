/-
The reflection document is a faithful image of the graph.

`Describes` says that an object of a reflection tree tells of a node what the
graph tells of it, and `Faithful` that a tree has such an object for every
documented node and no other. The tree that is read from the document of a
loaded graph is faithful (`document_faithful`): the reader, which tells
objects apart by their keys and looks types up on its own, never departs from
the graph.
-/
import ProtoBind.Proofs.Reflection.Index
import ProtoBind.Proofs.Schema.Loaded
import ProtoBind.Proofs.Schema.Printed
import ProtoBind.Proofs.Schema.Scopes

namespace ProtoBind.Reflection

open Schema (Graph Node Leaf EnumValue bareName)
open Message (fieldsOf methodsOf)

/-! ## What is to be told -/

/-- The message or enum that a leaf refers to. -/
def leafTarget? (g : Graph) : Leaf → Option Node
  | .scalar _ => none
  | .reference r => r.target.bind g.node?

/-- The field of a tree tells of a field of the graph, written in a dialect. -/
structure DescribesField (g : Graph) (dialect : String) (c : Node) (f : Schema.Field) (d : Field) : Prop where
  name : d.name = c.name
  fullName : d.fullName = c.fullName
  id : d.id = .int f.tag
  type : d.type = leafName g f.type.leaf
  scalar : d.scalar? = leafScalar? f.type.leaf
  repeated : d.repeated = f.type.isRepeated
  keyType : d.keyType = keyValue f.type
  packed : d.packed =
    .bool (f.type.isRepeated && isPackable g f.type.leaf && f.packed.getD (dialect == "proto3"))
  attr : d.attr = Naming.attributeName c.name
  resolved : ∀ {m}, leafTarget? g f.type.leaf = some m → d.resolved = some (.object m.fullName)
  unresolved : ∀ {s}, f.type.leaf = .scalar s → d.resolved = none
  newDefault : d.newDefault = f.default

/-- The method of a tree tells of a method of the graph. -/
structure DescribesMethod (g : Graph) (c : Node) (m : Schema.Method) (d : Method) : Prop where
  name : d.name = c.name
  fullName : d.fullName = c.fullName
  requestType : d.requestType = .string (referenceName g m.request)
  responseType : d.responseType = .string (referenceName g m.response)
  requestStream : d.requestStream = .bool m.requestStream
  responseStream : d.responseStream = .bool m.responseStream
  request : ∀ {n}, leafTarget? g (.reference m.request) = some n →
    d.resolvedRequest = some (.object n.fullName)
  response : ∀ {n}, leafTarget? g (.reference m.response) = some n →
    d.resolvedResponse = some (.object n.fullName)

/-- The body of an object tells of what a node declares. -/
def DescribesBody (g : Graph) (n : Node) (body : ObjectBody) : Prop :=
  match n.body with
  | .package => body = .package
  | .message dialect groups =>
    ∃ fields, body = .message fields
        ((liveGroups groups).map fun group => (group.name, group.fields.map .text)) ∧
      List.Forall₂ (fun x d => DescribesField g dialect x.1 x.2 d ∧ d.oneof = x.2.oneof)
        (fieldsOf g n) fields
  | .enum values =>
    ∃ read, body = .enum read ∧
      ((values.map (·.name)).Nodup → read = values.map fun v => (.text v.name, .int v.number))
  | .service =>
    ∃ methods, body = .service methods ∧
      List.Forall₂ (fun x d => DescribesMethod g x.1 x.2 d) (methodsOf g n) methods
  | .field f => ∃ d, body = .extension d ∧ DescribesField g "proto3" n f d
  | .method _ => False

/-- The object of a tree tells of a node of the graph. -/
structure Describes (g : Graph) (n : Node) (o : Object) : Prop where
  name : o.name = n.name
  fullName : o.fullName = n.fullName
  parent : ∀ {p}, g.parentOf n = some p → o.parent = p.fullName
  nested : o.nested = (innerNodes g n).map (·.name)
  body : DescribesBody g n o.body

/-- The tree has an object for every documented node, and no other. -/
structure Faithful (g : Graph) (t : Tree) : Prop where
  root : ∀ {n}, g.node? 0 = some n → t.lookup n.path = some .root
  object : ∀ n ∈ g.nodes, n.index ≠ 0 → Documented g n → t.lookup n.path = some (.object n.fullName) ∧
    ∃ o, t.object? (.object n.fullName) = some o ∧ Describes g n o
  absent : ∀ {path}, (∀ n ∈ g.nodes, Documented g n → n.fullName ≠ bareName path) → t.lookup path = none

/-! ## Lookup -/

theorem Tree.lookup_eq (t : Tree) (path : String) : t.lookup path =
    if path = "" ∨ path = "." then some .root
    else (t.index.lookup (bareName path)).map fun _ => .object (bareName path) := by
  simp only [Tree.lookup, Bool.or_eq_true, beq_iff_eq]
  rfl

variable {g : Graph} {n : Node} {t : Tree}

/-- Only the root has the empty name. -/
theorem fullName_ne (h : g.Arena) (hn : n ∈ g.nodes) (h0 : n.index ≠ 0) : n.fullName ≠ "" := by
  intro he
  obtain ⟨root, hroot, -, -, hempty⟩ := h.root
  have := h.unique hn (List.mem_of_getElem? hroot) (he.trans hempty.symm)
  exact h0 (this ▸ h.index hroot)

theorem lookup_path (h : g.Arena) (hn : n ∈ g.nodes) (h0 : n.index ≠ 0) {o : Object}
    (ho : t.index.lookup n.fullName = some o) : t.lookup n.path = some (.object n.fullName) := by
  have hne : ¬(n.path = "" ∨ n.path = ".") := by
    have := fullName_ne h hn h0
    simp only [Node.path, ← String.toList_inj, String.toList_append] at this ⊢
    simpa using this
  rw [Tree.lookup_eq, if_neg hne, Node.path, Schema.bareName_dot, ho]
  rfl

/-- The index of a tree has exactly the documented nodes, each as it was read. -/
structure Reflects (g : Graph) (t : Tree) : Prop where
  sound : Sound g t.index
  sees : ∀ n ∈ g.nodes, n.index ≠ 0 → Documented g n → Sees g t.index n

theorem Reflects.mem {key : String} {o : Object} (h : Reflects g t) (ho : t.index.lookup key = some o) :
    ∃ n ∈ g.nodes, n.index ≠ 0 ∧ Documented g n ∧ n.fullName = key ∧ o = rawObject g n := by
  obtain ⟨n, hn, h0, hd, he⟩ := h.sound (key, o) (Entries.mem_of_lookup ho)
  cases he
  exact ⟨n, hn, h0, hd, rfl, rfl⟩

/-! ## Fields -/

theorem IsType.documented (hk : n.IsType) : Documented g n := by
  refine ⟨?_, ?_⟩ <;> rcases hk with hk | hk <;> rw [hk] <;> nofun

theorem IsType.index_ne (h : g.Arena) (hn : n ∈ g.nodes) (hk : n.IsType) : n.index ≠ 0 := by
  intro h0
  obtain ⟨root, hroot, hpackage, -⟩ := h.root
  have hnode := h.node?_of_mem hn
  rw [h0, hroot, Option.some.injEq] at hnode
  rcases hk with hk | hk <;> rw [← hnode, hpackage] at hk <;> cases hk

/-- A type is found at its path. -/
theorem Reflects.lookup_type (h : Reflects g t) (ha : g.Arena) (hn : n ∈ g.nodes) (hk : n.IsType) :
    t.lookup n.path = some (.object n.fullName) ∧ t.object? (.object n.fullName) = some (rawObject g n) :=
  have h0 := IsType.index_ne ha hn hk
  have hsees := h.sees n hn h0 (IsType.documented hk)
  ⟨lookup_path ha hn h0 hsees, hsees⟩

/-- What a reference is resolved to is a type. -/
theorem target_type (h : g.Final) {f : Schema.Field} {r : Schema.Reference} (hn : n ∈ g.nodes)
    (hb : n.body = .field f) (hl : f.type.leaf = .reference r) {i : Nat} (hi : r.target = some i) :
    ∃ m, g.node? i = some m ∧ m.IsType := by
  rw [h.target hn hb hl] at hi
  exact Graph.resolve_type h.toArena hi

/-- The defaults of a field in a fresh message. -/
theorem newDefault_eq {f : Schema.Field} {d : Field} (hfit : f.DefaultFits)
    (hkey : d.keyType = keyValue f.type) (hrep : d.repeated = f.type.isRepeated)
    (hsingle : ∀ leaf, f.type = .single leaf → d.default = f.default) : d.newDefault = f.default := by
  unfold Schema.Field.DefaultFits at hfit
  unfold Field.newDefault Field.isMap
  cases ht : f.type with
  | single leaf =>
    rw [ht] at hkey hrep
    simpa [hkey, hrep, keyValue, Schema.ValueType.isRepeated] using hsingle leaf ht
  | repeated leaf =>
    rw [ht] at hkey hrep hfit
    simpa [hkey, hrep, keyValue, Schema.ValueType.isRepeated] using hfit.symm
  | map key leaf =>
    rw [ht] at hkey hfit
    simpa [hkey, keyValue] using hfit.symm

/-- A single field is read with its own default. -/
theorem rawField_default {f : Schema.Field} {leaf : Leaf} (hfit : f.DefaultFits) (ht : f.type = .single leaf)
    (parent : String) (c : Node) (oneof : Option String) :
    (rawField g parent c f oneof).default = f.default := by
  unfold Schema.Field.DefaultFits at hfit
  simp only [rawField, documented?, ht]
  rw [ht] at hfit
  cases hv : f.default with
  | null =>
    cases leaf with
    | scalar s =>
      rw [hv] at hfit
      cases s <;> obtain ⟨x, hx⟩ := hfit <;> cases hx
    | reference r => rfl
  | _ => rfl

/-- A field whose type is found to be an enum has a default of its own: if the graph had left the
reference without a target, the search would have ended at that enum. -/
theorem documented_of_enum (h : Reflects g t) (hg : g.Final) {c : Node} {f : Schema.Field} {leaf : Leaf}
    (hc : c ∈ g.nodes) (hb : c.body = .field f) (ht : f.type = .single leaf) (hnone : leafScalar? leaf = none)
    {o : Object} {values : List (Value × Value)}
    (ho : (t.lookup (leafName g leaf)).bind t.object? = some o) (hbody : o.body = .enum values) :
    (documented? f).isSome := by
  obtain ⟨r, rfl⟩ : ∃ r, leaf = .reference r := by
    cases leaf with
    | scalar s => cases hnone
    | reference r => exact ⟨r, rfl⟩
  have hl : f.type.leaf = .reference r := by rw [ht]; rfl
  -- The enum that was found.
  have hfound : ∃ m ∈ g.nodes, m.kind = .enum ∧ m.fullName = bareName (leafName g (.reference r)) := by
    rw [Tree.lookup_eq] at ho
    split at ho
    · cases ho
    · cases hi : t.index.lookup (bareName (leafName g (.reference r))) with
      | none => simp [hi] at ho
      | some o' =>
        obtain ⟨m, hm, -, -, hname, rfl⟩ := h.mem hi
        simp only [hi, Option.map_some, Option.bind_some, Tree.object?, Option.some.injEq] at ho
        refine ⟨m, hm, ?_, hname⟩
        rw [← ho] at hbody
        simp only [rawObject, rawBody] at hbody
        split at hbody <;> cases hbody
        next hm => rw [Node.kind, hm]; rfl
  obtain ⟨m, hm, hk, hname⟩ := hfound
  have htarget := hg.target hc hb hl
  cases hi : r.target with
  | none =>
    rw [hi] at htarget
    simp only [leafName, hi, Option.bind_none, Option.map_none, Option.getD_none] at hname
    have h0 : c.index ≠ 0 := by
      intro h0
      obtain ⟨root, hroot, hpackage, -⟩ := hg.root
      have hnode := hg.node?_of_mem hc
      rw [h0, hroot, Option.some.injEq] at hnode
      rw [hnode, Node.kind, hb] at hpackage
      cases hpackage
    obtain ⟨p, pn, hp, -, hpn, -⟩ := hg.parent (hg.node?_of_mem hc) h0
    have hsome := Graph.resolve_isSome hg.toShaped hm (.inr hk) hname hpn
    rw [← hp, ← htarget] at hsome
    cases hsome
  | some i =>
    obtain ⟨m', hm', hk'⟩ := target_type hg hc hb hl hi
    simp only [leafName, hi, Option.bind_some, hm', Option.map_some, Option.getD_some, Node.path,
      Schema.bareName_dot] at hname
    obtain rfl := hg.unique hm (List.mem_of_getElem? hm') hname
    have hdefault := hg.default hc hb
    obtain ⟨evs, hevs⟩ : ∃ evs, m.body = .enum evs := by
      cases hmb : m.body <;> rw [Node.kind, hmb] at hk <;> cases hk
      exact ⟨_, rfl⟩
    obtain ⟨k, hk⟩ := Graph.defaultOf_enum hdefault ht (by rw [hi]; exact hm') hevs
    simp [documented?, ht, hk]

/-- The type of a described field. -/
theorem lookup_target (h : Reflects g t) (hg : g.Final) {leaf : Leaf} {m : Node}
    (hm : leafTarget? g leaf = some m) (hk : m.IsType) :
    t.lookup (leafName g leaf) = some (.object m.fullName) := by
  cases leaf with
  | scalar s => cases hm
  | reference r =>
    simp only [leafTarget?] at hm
    obtain ⟨i, -, hi⟩ := Option.bind_eq_some_iff.mp hm
    rw [leafName, hm]
    exact (h.lookup_type hg.toArena (List.mem_of_getElem? hi) hk).1

/-- **A field that was read is resolved as in the graph.** -/
theorem resolveField_rawField (h : Reflects g t) (hg : g.Final) {parent dialect : String} {c : Node}
    {f : Schema.Field} (hc : c ∈ g.nodes) (hb : c.body = .field f) (hname : innerName parent c.name = c.fullName)
    (hdialect : dialectOf g c = dialect) (oneof : Option String) :
    ∃ d, t.resolveField (rawField g parent c f oneof) = .ok d ∧ DescribesField g dialect c f d ∧
      d.oneof = oneof := by
  obtain ⟨hfit, hsound⟩ := Final.fits hg hc hb
  have hscalar : (rawField g parent c f oneof).scalar? = leafScalar? f.type.leaf :=
    ofName?_leafName g hsound.leaf
  have hpacks : packs g c f = (f.type.isRepeated && isPackable g f.type.leaf &&
      f.packed.getD (dialect == "proto3")) := by
    rw [packs, ← hdialect]
    cases f.type <;> rfl
  cases hs : leafScalar? f.type.leaf with
  | some s =>
    refine ⟨rawField g parent c f oneof, ?_, ?_, rfl⟩
    · simp only [Tree.resolveField, hscalar, hs, Option.isSome_some, if_true]
      rfl
    · have hl : f.type.leaf = .scalar s := by
        cases hleaf : f.type.leaf <;> rw [hleaf] at hs <;> cases hs
        rfl
      exact {
        name := rfl, fullName := hname, id := rfl, type := rfl, scalar := hscalar, repeated := rfl
        keyType := rfl, packed := congrArg Value.bool hpacks, attr := rfl
        resolved := fun hm => by rw [hl] at hm; cases hm
        unresolved := fun _ => rfl
        newDefault := newDefault_eq hfit rfl rfl fun leaf ht => rawField_default hfit ht parent c oneof }
  | none =>
    refine ⟨_, by simp only [Tree.resolveField, hscalar, hs, Option.isSome_none]; rfl, ?_, rfl⟩
    exact {
      name := rfl, fullName := hname, id := rfl, type := rfl, scalar := hscalar, repeated := rfl
      keyType := rfl, packed := congrArg Value.bool hpacks, attr := rfl
      resolved := fun {m} hm => by
        have hk : m.IsType := by
          cases hleaf : f.type.leaf with
          | scalar s => rw [hleaf] at hm; cases hm
          | reference r =>
            rw [hleaf] at hm
            obtain ⟨i, hi, hi'⟩ := Option.bind_eq_some_iff.mp hm
            obtain ⟨m', hm', hk⟩ := target_type hg hc hb hleaf hi
            exact (Option.some.inj (hm'.symm.trans hi')) ▸ hk
        exact lookup_target h hg hm hk
      unresolved := fun hl => by rw [hl] at hs; cases hs
      newDefault := newDefault_eq hfit rfl rfl fun leaf ht => by
        dsimp only
        have hraw := @rawField_default g f leaf hfit ht parent c oneof
        split
        next values ho =>
          have hleaf : f.type.leaf = leaf := by rw [ht]; rfl
          have hdoc := documented_of_enum h hg hc hb ht (hleaf ▸ hs) (by rw [← hleaf]; exact ho) rfl
          exact (if_pos hdoc).trans hraw
        next => exact hraw }

/-! ## Methods -/

theorem resolveMethod_rawMethod (h : Reflects g t) (hg : g.Final) {parent : String} {c : Node}
    {m : Schema.Method} (hc : c ∈ g.nodes) (hb : c.body = .method m)
    (hname : innerName parent c.name = c.fullName) :
    ∃ d, t.resolveMethod (rawMethod g parent c m) = .ok d ∧ DescribesMethod g c m d := by
  have htype {r : Schema.Reference} {scope : Option Nat} (hr : r.target = g.resolve r.name scope) {n : Node}
      (hn : leafTarget? g (.reference r) = some n) : n.IsType := by
    obtain ⟨i, hi, hn⟩ := Option.bind_eq_some_iff.mp hn
    obtain ⟨n', hn', hk⟩ := Graph.resolve_type hg.toArena (hr.symm.trans hi)
    exact (Option.some.inj (hn'.symm.trans hn)) ▸ hk
  refine ⟨_, rfl, ?_⟩
  exact {
    name := rfl, fullName := hname, requestType := rfl, responseType := rfl
    requestStream := rfl, responseStream := rfl
    request := fun hn => lookup_target h hg hn (htype (hg.request hc hb) hn)
    response := fun hn => lookup_target h hg hn (htype (hg.response hc hb) hn) }

/-! ## Objects -/

theorem rawValues_eq {values : List EnumValue} (h : (values.map (·.name)).Nodup) :
    rawValues values = values.map fun v => (.text v.name, .int v.number) := by
  rw [rawValues, Entries.ofList_of_nodup (by rw [List.map_map]; exact h), List.map_map]
  rfl

theorem dialectOf_message {c : Node} {dialect : String} {groups : List Schema.OneofGroup}
    (hp : g.parentOf c = some n) (hb : n.body = .message dialect groups) : dialectOf g c = dialect := by
  obtain ⟨⟨_, _, _, _, body⟩, _, _, _, _⟩ := n
  obtain rfl : body = .message dialect groups := hb
  rw [dialectOf, hp]

/-- A documented node that stands in another has the name that it is read under. -/
theorem innerName_child (hg : g.Final) (hn : n ∈ g.nodes) {c : Node} (hc : c ∈ g.childrenOf n) :
    c ∈ g.nodes ∧ g.parentOf c = some n ∧ innerName n.fullName c.name = c.fullName := by
  obtain ⟨hcm, hpar⟩ := (hg.mem_childrenOf hn).mp hc
  exact ⟨hcm, parentOf_eq hg.toArena hn hpar, (hg.fullName_eq hcm hn hpar).symm⟩

/-- The fields of a message are resolved as in the graph. -/
theorem resolveFields_rawFields (h : Reflects g t) (hg : g.Final) (hn : n ∈ g.nodes) {dialect : String}
    {groups : List Schema.OneofGroup} (hb : n.body = .message dialect groups) :
    ∃ fields, (rawFields g n).mapM t.resolveField = .ok fields ∧
      List.Forall₂ (fun x d => DescribesField g dialect x.1 x.2 d ∧ d.oneof = x.2.oneof) (fieldsOf g n) fields := by
  obtain ⟨fields, hfields⟩ : ∃ fields, List.Forall₂ (fun x d => t.resolveField
      (rawField g n.fullName x.1 x.2 x.2.oneof) = .ok d ∧ DescribesField g dialect x.1 x.2 d ∧
        d.oneof = x.2.oneof) (fieldsOf g n) fields := by
    refine forall₂_exists fun x hx => ?_
    obtain ⟨hc, hf⟩ := mem_fieldsOf.mp hx
    obtain ⟨hcm, hpar, hname⟩ := innerName_child hg hn hc
    exact resolveField_rawField h hg hcm hf hname (dialectOf_message hpar hb) _
  refine ⟨fields, ?_, hfields.imp fun _ _ hx => hx.2⟩
  rw [mapM_ok_iff, rawFields, List.forall₂_map_left_iff]
  exact hfields.imp fun _ _ hx => hx.1

/-- The methods of a service are resolved as in the graph. -/
theorem resolveMethods_rawMethods (h : Reflects g t) (hg : g.Final) (hn : n ∈ g.nodes) :
    ∃ methods, ((methodsOf g n).map fun x => rawMethod g n.fullName x.1 x.2).mapM t.resolveMethod = .ok methods ∧
      List.Forall₂ (fun x d => DescribesMethod g x.1 x.2 d) (methodsOf g n) methods := by
  obtain ⟨methods, hmethods⟩ : ∃ methods, List.Forall₂ (fun x d => t.resolveMethod
      (rawMethod g n.fullName x.1 x.2) = .ok d ∧ DescribesMethod g x.1 x.2 d) (methodsOf g n) methods := by
    refine forall₂_exists fun x hx => ?_
    obtain ⟨hc, hm⟩ := mem_methodsOf.mp hx
    obtain ⟨hcm, -, hname⟩ := innerName_child hg hn hc
    exact resolveMethod_rawMethod h hg hcm hm hname
  refine ⟨methods, ?_, hmethods.imp fun _ _ hx => hx.2⟩
  rw [mapM_ok_iff, List.forall₂_map_left_iff]
  exact hmethods.imp fun _ _ hx => hx.1

theorem dialectOf_package {p : Node} (hp : g.parentOf n = some p) (hpk : p.kind = .package) :
    dialectOf g n = "proto3" := by
  unfold dialectOf
  rw [hp]
  split
  next hm => cases hm; cases hpk
  next => rfl

/-- What a node declares is resolved as in the graph. -/
theorem resolveObject_body (h : Reflects g t) (hg : g.Final) (hn : n ∈ g.nodes) (hd : Documented g n) :
    ∃ body, t.resolveObject (rawObject g n) = .ok { rawObject g n with body := body } ∧
      DescribesBody g n body := by
  cases hb : n.body with
  | package =>
    refine ⟨.package, ?_, by rw [DescribesBody, hb]⟩
    simp only [Tree.resolveObject, rawObject, rawBody, hb]
  | message dialect groups =>
    obtain ⟨fields, hmap, hfields⟩ := resolveFields_rawFields h hg hn hb
    refine ⟨.message fields ((liveGroups groups).map fun group => (group.name, group.fields.map .text)), ?_, ?_⟩
    · simp only [Tree.resolveObject, rawObject, rawBody, hb]
      exact map_ok_iff.mpr ⟨fields, hmap, rfl⟩
    · rw [DescribesBody, hb]
      exact ⟨fields, rfl, hfields⟩
  | enum values =>
    refine ⟨.enum (rawValues values), ?_, ?_⟩
    · simp only [Tree.resolveObject, rawObject, rawBody, hb]
    · rw [DescribesBody, hb]
      exact ⟨rawValues values, rfl, rawValues_eq⟩
  | service =>
    obtain ⟨methods, hmap, hmethods⟩ := resolveMethods_rawMethods h hg hn
    refine ⟨.service methods, ?_, ?_⟩
    · simp only [Tree.resolveObject, rawObject, rawBody, hb]
      exact map_ok_iff.mpr ⟨methods, hmap, rfl⟩
    · rw [DescribesBody, hb]
      exact ⟨methods, rfl, hmethods⟩
  | field f =>
    obtain ⟨p, hp, hpk⟩ := hd.2 (by rw [Node.kind, hb]; rfl)
    obtain ⟨i, hi, hpn⟩ := Option.bind_eq_some_iff.mp hp
    have hname : innerName p.fullName n.name = n.fullName :=
      (hg.fullName_eq hn (List.mem_of_getElem? hpn) (by rw [hi, hg.index hpn])).symm
    obtain ⟨d, hres, hdesc, -⟩ := resolveField_rawField h hg hn hb hname (dialectOf_package hp hpk) none
    refine ⟨.extension d, ?_, ?_⟩
    · simp only [Tree.resolveObject, rawObject, rawBody, hb, hp, Option.map_some, Option.getD_some]
      exact map_ok_iff.mpr ⟨d, hres, rfl⟩
    · rw [DescribesBody, hb]
      exact ⟨d, rfl, hdesc⟩
  | method m => exact absurd (by rw [Node.kind, hb]; rfl) hd.1

theorem resolveObject_rawObject (h : Reflects g t) (hg : g.Final) (hn : n ∈ g.nodes) (hd : Documented g n) :
    ∃ o, t.resolveObject (rawObject g n) = .ok o ∧ Describes g n o := by
  obtain ⟨body, hres, hbody⟩ := resolveObject_body h hg hn hd
  refine ⟨_, hres, rfl, rfl, fun {p} hp => ?_, rfl, hbody⟩
  simp only [rawObject, hp]
  rfl

/-! ## The whole tree -/

theorem ofJson_faithful (hg : g.Final) (hgroups : ∀ n ∈ g.nodes, (n.oneofs.map (·.name)).Nodup) :
    ∃ d t, document g = .ok d ∧ Tree.ofJson d = .ok t ∧ Faithful g t := by
  obtain ⟨d, nested, index, hd, hnested, hread, hsound, hsees⟩ := document_read hg hgroups
  have hraw : Reflects g ⟨nested.map (·.1), index⟩ := ⟨hsound, hsees⟩
  generalize hr : (⟨nested.map (·.1), index⟩ : Tree) = raw at hraw
  obtain ⟨index', hindex⟩ : ∃ index' : List (String × Object), List.Forall₂ (fun e e' => e'.1 = e.1 ∧
      raw.resolveObject e.2 = .ok e'.2) index index' := by
    refine forall₂_exists fun e he => ?_
    obtain ⟨n, hn, h0, hnd, rfl⟩ := hsound e he
    obtain ⟨o, ho, -⟩ := resolveObject_rawObject hraw hg hn hnd
    exact ⟨(n.fullName, o), rfl, ho⟩
  have hlookup := Entries.lookup_forall₂ (R := fun o o' => raw.resolveObject o = .ok o') hindex
  refine ⟨d, ⟨nested.map (·.1), index'⟩, hd, ?_, ?_, ?_, ?_⟩
  · unfold Tree.ofJson
    refine bind_ok_iff.mpr ⟨nested, hnested, bind_ok_iff.mpr ⟨index, hread, ?_⟩⟩
    refine map_ok_iff.mpr ⟨index', ?_, rfl⟩
    rw [mapM_ok_iff]
    refine hindex.imp fun e e' he => ?_
    rw [hr]
    exact map_ok_iff.mpr ⟨e'.2, he.2, Prod.ext he.1.symm rfl⟩
  · intro n hn
    obtain ⟨root, hroot, -, -, hempty⟩ := hg.root
    rw [hn, Option.some.injEq] at hroot
    rw [Tree.lookup_eq, if_pos (.inr (by rw [Node.path, hroot, hempty]; rfl))]
  · intro n hn h0 hnd
    rcases hlookup n.fullName with ⟨hnone, -⟩ | ⟨v, w, hv, hw, hres⟩
    · rw [hsees n hn h0 hnd] at hnone
      cases hnone
    · rw [hsees n hn h0 hnd, Option.some.injEq] at hv
      obtain ⟨o, ho, hdesc⟩ := resolveObject_rawObject hraw hg hn hnd
      rw [← hv, ho, Except.ok.injEq] at hres
      exact ⟨lookup_path hg.toArena hn h0 hw, o, by rw [hres]; exact hw, hdesc⟩
  · intro path hpath
    have hne : ¬(path = "" ∨ path = ".") := by
      obtain ⟨root, hroot, hkind, -, hempty⟩ := hg.root
      have hroot' := hpath root (List.mem_of_getElem? hroot)
        ⟨by rw [hkind]; nofun, by rw [hkind]; nofun⟩
      rintro (rfl | rfl) <;> exact hroot' hempty
    rw [Tree.lookup_eq, if_neg hne, Option.map_eq_none_iff]
    rcases hlookup (bareName path) with ⟨-, hnone⟩ | ⟨v, w, hv, -, -⟩
    · exact hnone
    · have hraw' : raw.index.lookup (bareName path) = some v := hr ▸ hv
      obtain ⟨n, hn, -, hnd, hname, -⟩ := hraw.mem hraw'
      exact absurd hname (hpath n hn hnd)

/-- **The reflection document is a faithful image of the graph**: of every loaded graph whose
messages have distinct group names the document exists, it is read without a fault, and the tree that
is read tells of every documented node what the graph tells; of an enum it tells all names and numbers
in order when the names are distinct. -/
theorem document_faithful [Source.CharacterNames] {sources : Schema.Sources} {s : Schema.Loader} {g : Graph}
    (hload : Schema.loadSources sources Schema.Loader.empty = .ok g s)
    (hgroups : ∀ n ∈ g.nodes, (n.oneofs.map (·.name)).Nodup) :
    ∃ d t, document g = .ok d ∧ Tree.ofJson d = .ok t ∧ Faithful g t :=
  ofJson_faithful (Schema.loadSources_final Graph.empty_formed hload) hgroups

/-- A message with a field, an enum beside it and a group. -/
def choosingFiles : List (String × List Source.Decl) :=
  [("a.proto", [.enum ⟨"E", [⟨"A", 0, 1⟩, ⟨"B", 2, 1⟩], 1⟩,
    .message "M" [.field ⟨none, "E", "e", 1, [], 1⟩, .map ⟨"string", "M", "named", 2, [], 1⟩,
      .oneof ⟨"choice", [⟨none, "M", "inner", 3, [], 1⟩, ⟨none, "string", "text", 4, [], 1⟩], 1⟩] 1])]

def choosing : Schema.Sources := Schema.printedSources choosingFiles

theorem choosing_grouped : succeedsWith (Schema.loadSources choosing) .empty (fun g =>
    (g.nodes.all fun n => decide (n.oneofs.map (·.name)).Nodup) &&
      g.nodes.any fun n => n.fullName == "M" && n.kind == .message && n.oneofs.map (·.name) == ["choice"]) = true := by
  unfold Schema.loadSources Schema.loadOne
  rw [Schema.Load.load_eq_known choosingFiles (by decide +kernel)]
  decide +kernel

/-- The tree tells of the message, which has a group. -/
theorem document_faithful_choosing : ∃ g s, Schema.loadSources choosing .empty = .ok g s ∧ ∃ d t,
    document g = .ok d ∧ Tree.ofJson d = .ok t ∧ Faithful g t ∧ ∃ n ∈ g.nodes, n.oneofs.map (·.name) = ["choice"] ∧
      ∃ o, t.object? (.object "M") = some o ∧ Describes g n o := by
  obtain ⟨g, s, hload, htest⟩ := exists_of_succeedsWith choosing_grouped
  simp only [Bool.and_eq_true, List.all_eq_true, List.any_eq_true, decide_eq_true_eq, beq_iff_eq] at htest
  obtain ⟨hgroups, n, hn, ⟨hname, hk⟩, hchoice⟩ := htest
  obtain ⟨d, t, hd, ht, hfaithful⟩ := document_faithful hload hgroups
  have h0 := IsType.index_ne (Schema.loadSources_final Graph.empty_formed hload).toArena hn (.inl hk)
  exact ⟨g, s, hload, d, t, hd, ht, hfaithful, n, hn, hchoice,
    hname ▸ (hfaithful.object n hn h0 (IsType.documented (.inl hk))).2⟩

end ProtoBind.Reflection
