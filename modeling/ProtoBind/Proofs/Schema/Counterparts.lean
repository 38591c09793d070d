/-
The nodes of renumbered graphs.

Two resolved graphs may be the same up to the numbers and the order of their
nodes (`Copies`). The nodes of one full name are then counterparts: they stand
in counterparts (`Copies.parent`), what stands in them are counterparts in one
order unless they are packages (`Copies.childrenOf`), and they declare the same
up to the numbers of the nodes that they refer to, which are counterparts too
(`Copies.body`).
-/
import ProtoBind.Proofs.Schema.Renumbered

namespace ProtoBind.Schema.Graph

/-- Two resolved graphs that are the same up to the numbers of their nodes. -/
structure Copies (g g' : Graph) : Prop extends Renumbered g g' where
  left : g.Final
  right : g'.Final

/-- Nodes of one full name. -/
structure Counterpart (g g' : Graph) (n n' : Node) : Prop where
  left : n ∈ g.nodes
  right : n' ∈ g'.nodes
  fullName : n.fullName = n'.fullName

/-! ## Bodies -/

/-- References of one name that mean counterparts, or nothing. -/
inductive SameReference (g g' : Graph) : Reference → Reference → Prop
  | unresolved {name : String} : SameReference g g' ⟨name, none⟩ ⟨name, none⟩
  | resolved {name : String} {i i' : Nat} {t t' : Node} : g.node? i = some t → g'.node? i' = some t' →
    Counterpart g g' t t' → SameReference g g' ⟨name, some i⟩ ⟨name, some i'⟩

inductive SameLeaf (g g' : Graph) : Leaf → Leaf → Prop
  | scalar (k : Scalar) : SameLeaf g g' (.scalar k) (.scalar k)
  | reference {r r' : Reference} : SameReference g g' r r' → SameLeaf g g' (.reference r) (.reference r')

/-- Fields with the same number, group, arity and elements. -/
structure SameField (g g' : Graph) (f f' : Field) : Prop where
  tag : f.tag = f'.tag
  oneof : f.oneof = f'.oneof
  arity : f.type.arity? = f'.type.arity?
  key : f.type.key = f'.type.key
  leaf : SameLeaf g g' f.type.leaf f'.type.leaf

structure SameMethod (g g' : Graph) (m m' : Method) : Prop where
  request : SameReference g g' m.request m'.request
  response : SameReference g g' m.response m'.response
  requestStream : m.requestStream = m'.requestStream
  responseStream : m.responseStream = m'.responseStream

/-- Bodies that are the same up to the numbers of the nodes that they refer to. -/
inductive SameBody (g g' : Graph) : Body → Body → Prop
  | package : SameBody g g' .package .package
  | message {dialect : String} {oneofs : List OneofGroup} :
    SameBody g g' (.message dialect oneofs) (.message dialect oneofs)
  | enum {values : List EnumValue} : SameBody g g' (.enum values) (.enum values)
  | service : SameBody g g' .service .service
  | field {f f' : Field} : SameField g g' f f' → SameBody g g' (.field f) (.field f')
  | method {m m' : Method} : SameMethod g g' m m' → SameBody g g' (.method m) (.method m')

variable {g g' : Graph}

/-- Numbers of one full name are those of counterparts, or of no nodes. -/
theorem counterpart_of_nameAt {i i' : Option Nat} (h : g.nameAt i = g'.nameAt i') :
    (i.bind g.node? = none ∧ i'.bind g'.node? = none) ∨
      ∃ n n', i.bind g.node? = some n ∧ i'.bind g'.node? = some n' ∧ Counterpart g g' n n' := by
  cases hname : g.nameAt i with
  | none => exact .inl ⟨nameAt_eq_none hname, nameAt_eq_none (h.symm.trans hname)⟩
  | some name =>
    obtain ⟨j, n, rfl, hn, hfull⟩ := nameAt_eq_some hname
    obtain ⟨j', n', rfl, hn', hfull'⟩ := nameAt_eq_some (h.symm.trans hname)
    exact .inr ⟨n, n', hn, hn', List.mem_of_getElem? hn, List.mem_of_getElem? hn', hfull.trans hfull'.symm⟩

theorem counterparts_of_names {l l' : List Node} (hl : ∀ n ∈ l, n ∈ g.nodes) (hl' : ∀ n' ∈ l', n' ∈ g'.nodes)
    (h : l.map (·.fullName) = l'.map (·.fullName)) : List.Forall₂ (Counterpart g g') l l' := by
  have hnames : List.Forall₂ (fun n n' : Node => n.fullName = n'.fullName) l l' := by
    rw [← List.forall₂_eq_eq_eq, List.forall₂_map_left_iff, List.forall₂_map_right_iff] at h
    exact h
  exact (forall₂_with_mem hnames).imp fun n n' hn => ⟨hl n hn.1, hl' n' hn.2.1, hn.2.2⟩

/-- References that were resolved to nodes of one full name. -/
theorem SameReference.of_nameAt {r r' : Reference} {scope scope' : Option Nat} (hg : g.Arena) (hg' : g'.Arena)
    (hr : r.target = g.resolve r.name scope) (hr' : r'.target = g'.resolve r'.name scope') (hname : r.name = r'.name)
    (htarget : g.nameAt r.target = g'.nameAt r'.target) : SameReference g g' r r' := by
  obtain ⟨name, target⟩ := r
  obtain ⟨name', target'⟩ := r'
  obtain rfl : name = name' := hname
  dsimp only at hr hr' htarget
  cases target with
  | none =>
    cases target' with
    | none => exact .unresolved
    | some i' =>
      obtain ⟨t', ht', -⟩ := resolve_type hg' hr'.symm
      rw [nameAt_some ht'] at htarget
      cases htarget
  | some i =>
    obtain ⟨t, ht, -⟩ := resolve_type hg hr.symm
    rw [nameAt_some ht] at htarget
    obtain ⟨i', t', rfl, ht', hfull⟩ := nameAt_eq_some htarget.symm
    exact .resolved ht ht' ⟨List.mem_of_getElem? ht, List.mem_of_getElem? ht', hfull.symm⟩

theorem exists_field_of_erase {f : Field} {b : Body} (h : (Body.field f).erase = b.erase) : ∃ f', b = .field f' := by
  cases b with
  | field f' => exact ⟨f', rfl⟩
  | _ => cases h

theorem exists_method_of_erase {m : Method} {b : Body} (h : (Body.method m).erase = b.erase) :
    ∃ m', b = .method m' := by
  cases b with
  | method m' => exact ⟨m', rfl⟩
  | _ => cases h

theorem arity?_withLeaf (t : ValueType) (l : Leaf) : (t.withLeaf l).arity? = t.arity? := by cases t <;> rfl

theorem key_withLeaf (t : ValueType) (l : Leaf) : (t.withLeaf l).key = t.key := by cases t <;> rfl

/-- Fields that are the same without the numbers that they refer to. -/
theorem SameField.of_erase {f f' : Field} (he : (Body.field f).erase = (Body.field f').erase)
    (hr : ∀ r r', f.type.leaf = .reference r → f'.type.leaf = .reference r' → r.name = r'.name →
      SameReference g g' r r') : SameField g g' f f' := by
  have he := Body.field.inj he
  have htype := congrArg Field.type he
  have harity := congrArg ValueType.arity? htype
  have hkey := congrArg ValueType.key htype
  have hleaf := congrArg ValueType.leaf htype
  rw [arity?_withLeaf, arity?_withLeaf] at harity
  rw [key_withLeaf, key_withLeaf] at hkey
  rw [leaf_withLeaf, leaf_withLeaf] at hleaf
  refine ⟨(congrArg Field.tag he :), (congrArg Field.oneof he :), harity, hkey, ?_⟩
  cases hl : f.type.leaf with
  | scalar k =>
    cases hl' : f'.type.leaf with
    | scalar k' =>
      rw [hl, hl'] at hleaf
      rw [Leaf.scalar.inj hleaf]
      exact .scalar k'
    | reference r' =>
      rw [hl, hl'] at hleaf
      cases hleaf
  | reference r =>
    cases hl' : f'.type.leaf with
    | scalar k' =>
      rw [hl, hl'] at hleaf
      cases hleaf
    | reference r' =>
      rw [hl, hl'] at hleaf
      exact .reference (hr r r' hl hl' (congrArg Leaf.name hleaf :))

theorem SameBody.kind {b b' : Body} (h : SameBody g g' b b') : b.kind = b'.kind := by
  cases h <;> rfl

/-! ## Counterparts -/

namespace Copies

variable {n n' : Node}

theorem length (h : Copies g g') : g.nodes.length = g'.nodes.length := by
  simpa [fullNames, listing] using h.names.length_eq

section Nodes

variable (h : Copies g g') (c : Counterpart g g' n n')

include h c

theorem portrait : g.portrait n = g'.portrait n' := h.portraits c.left c.right c.fullName

theorem name : n.name = n'.name := (congrArg (·.entry.name) (h.portrait c) :)

theorem file : n.file = n'.file := (congrArg (·.entry.file) (h.portrait c) :)

theorem doc : n.doc = n'.doc := (congrArg (·.entry.doc) (h.portrait c) :)

/-- Counterparts stand in counterparts. -/
theorem parent : (g.parentOf n = none ∧ g'.parentOf n' = none) ∨
    ∃ p p', g.parentOf n = some p ∧ g'.parentOf n' = some p' ∧ Counterpart g g' p p' :=
  counterpart_of_nameAt (congrArg Portrait.parent (h.portrait c) :)

/-- Counterparts declare the same up to numbers. -/
theorem body : SameBody g g' n.body n'.body := by
  have hg := h.left.toArena
  have hg' := h.right.toArena
  have hbody : n.body.erase = n'.body.erase := (congrArg (·.entry.body) (h.portrait c) :)
  have htargets : n.body.targets.map g.nameAt = n'.body.targets.map g'.nameAt :=
    (congrArg Portrait.targets (h.portrait c) :)
  cases hb : n.body with
  | field f =>
    rw [hb] at hbody
    obtain ⟨f', hb'⟩ := exists_field_of_erase hbody
    rw [hb'] at hbody ⊢
    rw [hb, hb'] at htargets
    refine .field (.of_erase hbody fun r r' hl hl' hname => ?_)
    refine .of_nameAt hg hg' (h.left.target c.left hb hl) (h.right.target c.right hb' hl') hname ?_
    simp only [Body.targets, hl, hl', Leaf.target, List.map_cons, List.cons.injEq] at htargets
    exact htargets.1
  | method m =>
    rw [hb] at hbody
    obtain ⟨m', hb'⟩ := exists_method_of_erase hbody
    rw [hb'] at hbody ⊢
    rw [hb, hb'] at htargets
    simp only [Body.targets, List.map_cons, List.cons.injEq] at htargets
    have he := Body.method.inj hbody
    refine .method ⟨?_, ?_, (congrArg Method.requestStream he :), (congrArg Method.responseStream he :)⟩
    · exact .of_nameAt hg hg' (h.left.request c.left hb) (h.right.request c.right hb')
        (congrArg (·.request.name) he :) htargets.1
    · exact .of_nameAt hg hg' (h.left.response c.left hb) (h.right.response c.right hb')
        (congrArg (·.response.name) he :) htargets.2.1
  | _ =>
    cases hb' : n'.body <;> rw [hb, hb'] at hbody <;> cases hbody
    constructor

theorem kind : n.kind = n'.kind := (h.body c).kind

theorem oneofs : n.oneofs = n'.oneofs := by
  have hb := h.body c
  unfold Node.oneofs
  generalize n.body = b, n'.body = b' at hb
  cases hb <;> rfl

theorem enumValues : n.enumValues = n'.enumValues := by
  have hb := h.body c
  unfold Node.enumValues
  generalize n.body = b, n'.body = b' at hb
  cases hb <;> rfl

/-- What stands in a declaration are counterparts, in one order. -/
theorem childrenOf (hk : n.kind ≠ .package) :
    List.Forall₂ (Counterpart g g') (g.childrenOf n) (g'.childrenOf n') :=
  counterparts_of_names (fun _ hc => ((h.left.mem_childrenOf c.left).mp hc).1)
    (fun _ hc => ((h.right.mem_childrenOf c.right).mp hc).1) ((h.children c.left c.right c.fullName).2 hk)

theorem childrenOfKind (hk : n.kind ≠ .package) (k : Kind) :
    List.Forall₂ (fun c c' => Counterpart g g' c c' ∧ c.kind = k) (g.childrenOfKind n k) (g'.childrenOfKind n' k) := by
  have hall : List.Forall₂ (Counterpart g g') (g.childrenOfKind n k) (g'.childrenOfKind n' k) :=
    List.rel_filter (fun _ _ c => by simp only [h.kind c]) (h.childrenOf c hk)
  exact (forall₂_with_mem hall).imp fun c c' hc => ⟨hc.2.2, beq_iff_eq.mp (List.mem_filter.mp hc.1).2⟩

end Nodes

/-- The nodes of a file are counterparts, in one order. -/
theorem nodesIn (h : Copies g g') (file : String) : List.Forall₂ (Counterpart g g')
    (g.nodes.filter (·.file = some file)) (g'.nodes.filter (·.file = some file)) :=
  counterparts_of_names (fun _ hn => List.mem_of_mem_filter hn) (fun _ hn => List.mem_of_mem_filter hn) (h.order file)

end Copies

end ProtoBind.Schema.Graph
