/-
The classes of a graph.

A class writes after the reflection tree and reads after the graph. When the
tree is a faithful image of the graph, the two describe the same fields: the
library of a graph whose messages have numbers, keys and attributes as they
should (`Codable`) is coherent (`Serves.coherent`), and its messages come back
from the wire (`round_trip_of_load`).
-/
import ProtoBind.Proofs.Message.Clear
import ProtoBind.Proofs.Message.Typed
import ProtoBind.Proofs.Reflection.Faithful
import ProtoBind.Proofs.Schema.Printed

namespace ProtoBind.Message

open Schema (Graph Node Leaf Arity)
open Reflection (Tree Faithful DescribesField leafScalar? leafTarget? keyValue mem_fieldsOf mem_methodsOf)

/-- Every name of the graph has a meaning, and every message has keys, numbers and attributes that can
be told apart: keys of maps are integers, truths or texts, numbers lie below `2^29`, and attributes are
distinct and not private to their class. -/
structure Codable (g : Graph) : Prop where
  resolved : g.unresolved = []
  keys : ∀ {n f key leaf}, n ∈ g.nodes → n.body = .field f → f.type = .map key leaf →
    ∃ k, Scalar.ofName? key = some k ∧ k.IsMapKey
  numbers : ∀ {n f}, n ∈ g.nodes → n.body = .field f → 1 ≤ f.tag ∧ f.tag < 2 ^ 29
  distinct : ∀ n ∈ g.nodes, n.kind = .message → (attributesOf g n).Nodup
  unhidden : ∀ n ∈ g.nodes, n.kind = .message → ∀ a ∈ attributesOf g n, a.startsWith "__" = false

/-- What reading asks of a graph: every name has a meaning, and the attributes of every message are distinct and
not private to their class. -/
structure Legible (g : Graph) : Prop where
  resolved : g.unresolved = []
  distinct : ∀ n ∈ g.nodes, n.kind = .message → (attributesOf g n).Nodup
  unhidden : ∀ n ∈ g.nodes, n.kind = .message → ∀ a ∈ attributesOf g n, a.startsWith "__" = false

/-- What setting asks of a graph: the attributes of every message are distinct and not private to their class. -/
structure Attributed (g : Graph) : Prop where
  distinct : ∀ n ∈ g.nodes, n.kind = .message → (attributesOf g n).Nodup
  unhidden : ∀ n ∈ g.nodes, n.kind = .message → ∀ a ∈ attributesOf g n, a.startsWith "__" = false

/-- What creating asks of a graph: it can be read, and the keys of every map in a message are of a scalar kind. -/
structure Buildable (g : Graph) : Prop extends Legible g where
  arities : ∀ n ∈ g.nodes, n.kind = .message → ∀ x ∈ fieldsOf g n, ∃ arity, x.2.type.arity? = some arity

theorem Codable.legible {g : Graph} (h : Codable g) : Legible g := ⟨h.resolved, h.distinct, h.unhidden⟩

theorem Legible.attributed {g : Graph} (h : Legible g) : Attributed g := ⟨h.distinct, h.unhidden⟩

variable {g : Graph} {t : Tree} {lib : Library} {n : Node}

theorem Attributed.groups (h : Attributed g) : ∀ n ∈ g.nodes, (n.oneofs.map (·.name)).Nodup := by
  intro n hn
  cases hb : n.body with
  | message dialect groups =>
    have hattrs := h.distinct n hn (by rw [Node.kind, hb]; rfl)
    have hgroups := (List.nodup_append.mp hattrs).2.1
    refine List.Nodup.of_map Naming.attributeName ?_
    rwa [List.map_map]
  | _ => simp [Node.oneofs, hb]

theorem Legible.groups (h : Legible g) : ∀ n ∈ g.nodes, (n.oneofs.map (·.name)).Nodup := h.attributed.groups

theorem Codable.groups (h : Codable g) : ∀ n ∈ g.nodes, (n.oneofs.map (·.name)).Nodup := h.legible.groups

instance (k : Scalar) : Decidable k.IsMapKey := inferInstanceAs (Decidable (_ ∨ _ ∨ _))

/-- What `Codable` asks of one node. -/
def isCodableAt (g : Graph) (n : Node) : Bool :=
  match n.body with
  | .field f =>
    decide (1 ≤ f.tag ∧ f.tag < 2 ^ 29) &&
      match f.type with
      | .map key _ => (Scalar.ofName? key).any fun k => decide k.IsMapKey
      | _ => true
  | .message _ _ => decide (attributesOf g n).Nodup && (attributesOf g n).all fun a => !a.startsWith "__"
  | _ => true

/-- The conditions on a graph can be tested node by node. -/
theorem codable_iff : Codable g ↔ g.unresolved.isEmpty = true ∧ g.nodes.all (isCodableAt g) = true := by
  rw [List.isEmpty_iff, List.all_eq_true]
  constructor
  · refine fun h => ⟨h.resolved, fun n hn => ?_⟩
    unfold isCodableAt
    split
    next f hb =>
      rw [Bool.and_eq_true, decide_eq_true_eq]
      refine ⟨h.numbers hn hb, ?_⟩
      split
      next key leaf ht =>
        obtain ⟨k, hk, hmapKey⟩ := h.keys hn hb ht
        simp [hk, hmapKey]
      next => rfl
    next dialect groups hb =>
      have hk : n.kind = .message := by rw [Node.kind, hb]; rfl
      rw [Bool.and_eq_true, decide_eq_true_eq, List.all_eq_true]
      exact ⟨h.distinct n hn hk, fun a ha => by rw [h.unhidden n hn hk a ha]; rfl⟩
    next => rfl
  · rintro ⟨hresolved, hall⟩
    have hfield {n : Node} {f : Schema.Field} (hn : n ∈ g.nodes) (hb : n.body = .field f) := by
      have hn := hall n hn
      rw [isCodableAt, hb] at hn
      exact (Bool.and_eq_true _ _).mp hn
    have hmessage (n : Node) (hn : n ∈ g.nodes) (hk : n.kind = .message) : (attributesOf g n).Nodup ∧
        ∀ a ∈ attributesOf g n, a.startsWith "__" = false := by
      have hn := hall n hn
      unfold isCodableAt at hn
      split at hn
      next f hb => rw [Node.kind, hb] at hk; cases hk
      next =>
        rw [Bool.and_eq_true, decide_eq_true_eq, List.all_eq_true] at hn
        exact ⟨hn.1, fun a ha => by simpa using hn.2 a ha⟩
      next hne hb =>
        cases hbody : n.body with
        | message dialect groups => exact absurd hbody (hb dialect groups)
        | _ => rw [Node.kind, hbody] at hk; cases hk
    refine ⟨hresolved, fun {n f key leaf} hn hb ht => ?_, fun hn hb => ?_, fun n hn hk => (hmessage n hn hk).1,
      fun n hn hk => (hmessage n hn hk).2⟩
    · have hkey : (Scalar.ofName? key).any (fun k => decide k.IsMapKey) = true := by
        have hkey := (hfield hn hb).2
        rw [ht] at hkey
        exact hkey
      cases hk : Scalar.ofName? key with
      | none =>
        rw [hk] at hkey
        cases hkey
      | some k =>
        rw [hk] at hkey
        exact ⟨k, rfl, of_decide_eq_true hkey⟩
    · exact of_decide_eq_true (hfield hn hb).1

instance (g : Graph) : Decidable (Codable g) := decidable_of_iff' _ codable_iff

theorem Codable.buildable (h : Codable g) (hg : g.Arena) : Buildable g := by
  refine ⟨h.legible, fun n hn hk x hx => ?_⟩
  obtain ⟨hchild, hb⟩ := mem_fieldsOf.mp hx
  cases ht : x.2.type with
  | map key leaf =>
    obtain ⟨k, hk, -⟩ := h.keys ((hg.mem_childrenOf hn).mp hchild).1 hb ht
    exact ⟨.map k, by rw [Schema.ValueType.arity?, hk]; rfl⟩
  | _ => exact ⟨_, rfl⟩

/-- In a graph that has a program every map in a message has keys of a scalar kind. -/
theorem Legible.buildable [Source.CharacterNames] {sources : Schema.Sources} {s : Schema.Loader}
    {o : Codegen.Options} {p : Codegen.Program}
    (hload : Schema.loadSources sources .empty = .ok g s) (hp : Codegen.Program.ofGraph g o = .ok p) (h : Legible g) :
    Buildable g :=
  ⟨h, fun _ hn hk _ hx => p.exists_arity hload hp hn hk hx⟩

theorem Legible.missing_eq (h : Legible g) {c : Node} (hc : c ∈ g.nodes) : Graph.missing c.body = [] :=
  List.map_eq_nil_iff.mp (List.flatMap_eq_nil_iff.mp h.resolved c hc)

/-- The messages of a method are there. -/
theorem Legible.targeted (h : Legible g) (hg : g.Final) {c : Node} {m : Schema.Method} (hc : c ∈ g.nodes)
    (hb : c.body = .method m) : Targeted g m.request ∧ Targeted g m.response := by
  have htarget {r : Schema.Reference} {scope : Option Nat} (hr : r.target = g.resolve r.name scope)
      (hsome : ¬ r.target = none) : Targeted g r := by
    obtain ⟨i, hi⟩ := Option.ne_none_iff_exists'.mp hsome
    obtain ⟨m, hm, -⟩ := Graph.resolve_type hg.toArena (hr.symm.trans hi)
    exact ⟨m, by rw [hi]; exact hm⟩
  have hmissing := h.missing_eq hc
  rw [hb, Graph.missing, List.filterMap_eq_nil_iff] at hmissing
  exact ⟨htarget (hg.request hc hb) (by simpa using hmissing m.request (by simp)),
    htarget (hg.response hc hb) (by simpa using hmissing m.response (by simp))⟩

/-- A type that is referred to is there. -/
theorem Legible.target (h : Legible g) (hg : g.Final) {c : Node} {f : Schema.Field} {r : Schema.Reference}
    (hc : c ∈ g.nodes) (hb : c.body = .field f) (hl : f.type.leaf = .reference r) :
    ∃ m ∈ g.nodes, leafTarget? g f.type.leaf = some m ∧ m.IsType := by
  obtain ⟨i, hi⟩ : ∃ i, r.target = some i := by
    rw [← Option.ne_none_iff_exists']
    intro hnone
    obtain ⟨name, target⟩ := r
    obtain rfl : target = none := hnone
    have hmissing := h.missing_eq hc
    simp [Graph.missing, hb, hl] at hmissing
  obtain ⟨m, hm, hk⟩ := Reflection.target_type hg hc hb hl hi
  refine ⟨m, List.mem_of_getElem? hm, ?_, hk⟩
  rw [hl, leafTarget?, hi]
  exact hm

theorem Legible.exists_element (h : Legible g) (hg : g.Final) {c : Node} {f : Schema.Field} (hc : c ∈ g.nodes)
    (hb : c.body = .field f) : ∃ e, elementOfLeaf? g f.type.leaf = some e := by
  cases hl : f.type.leaf with
  | scalar k => exact ⟨_, rfl⟩
  | reference r =>
    obtain ⟨m, -, htarget, -⟩ := h.target hg hc hb hl
    rw [hl, leafTarget?] at htarget
    exact ⟨_, by rw [elementOfLeaf?, htarget]; rfl⟩

/-! ## Fields -/

theorem privateName_of_unhidden {owner attr : String} (h : attr.startsWith "__" = false) :
    privateName owner attr = attr := by
  simp [privateName, h]

/-- A described field has the element that the graph gives it. -/
theorem elementOf?_describes (h : Legible g) (hg : g.Final) (hf : Faithful g t) (ht : lib.tree = t)
    {dialect : String} {c : Node} {f : Schema.Field} {d : Reflection.Field} (hc : c ∈ g.nodes)
    (hb : c.body = .field f) (hd : DescribesField g dialect c f d) :
    ∃ e, elementOfLeaf? g f.type.leaf = some e ∧ lib.elementOf? d = some e := by
  cases hl : f.type.leaf with
  | scalar k =>
    refine ⟨.scalar k, rfl, ?_⟩
    have hscalar := hd.scalar
    rw [hl] at hscalar
    simp only [Library.elementOf?, hd.unresolved hl, Option.bind_none, hscalar, leafScalar?, Option.map_some]
  | reference r =>
    obtain ⟨m, hm, htarget, hk⟩ := h.target hg hc hb hl
    have h0 := Reflection.IsType.index_ne hg.toArena hm hk
    obtain ⟨-, o, ho, hdesc⟩ := hf.object m hm h0 (Reflection.IsType.documented hk)
    have hfound : d.resolved.bind lib.tree.object? = some o := by
      rw [hd.resolved htarget, ht]
      exact ho
    rw [hl, leafTarget?] at htarget
    refine ⟨if m.kind = .enum then .enum m.fullName else .message m.fullName, ?_, ?_⟩
    · simp only [elementOfLeaf?, htarget]
      rfl
    · obtain ⟨name, fullName, parent, nested, body⟩ := o
      have hname : fullName = m.fullName := hdesc.fullName
      have hbody := hdesc.body
      simp only [Library.elementOf?, hfound]
      cases hmb : m.body with
      | message dialect groups =>
        rw [Reflection.DescribesBody, hmb] at hbody
        obtain ⟨fields, rfl, -⟩ := hbody
        simp [Node.kind, hmb, Schema.Body.kind, hname]
      | enum values =>
        rw [Reflection.DescribesBody, hmb] at hbody
        obtain ⟨read, rfl, -⟩ := hbody
        simp [Node.kind, hmb, Schema.Body.kind, hname]
      | _ => rcases hk with hk | hk <;> rw [Node.kind, hmb] at hk <;> cases hk

/-- A described field has the shape that the graph gives it. -/
theorem shaped_describes {dialect : String} {c : Node} {f : Schema.Field} {d : Reflection.Field} {arity : Arity}
    (harity : f.type.arity? = some arity) (hd : DescribesField g dialect c f d) : Shaped d arity := by
  have hkey := hd.keyType
  have hrep := hd.repeated
  cases ht : f.type with
  | single leaf =>
    rw [ht] at harity hkey hrep
    cases harity
    exact ⟨by rw [Reflection.Field.isMap, hkey]; rfl, hrep⟩
  | repeated leaf =>
    rw [ht] at harity hkey hrep
    cases harity
    exact ⟨by rw [Reflection.Field.isMap, hkey]; rfl, hrep⟩
  | map key leaf =>
    rw [ht] at harity
    obtain ⟨k, hk, rfl⟩ := Option.map_eq_some_iff.mp harity
    have hname : k.name = key := by simpa using List.find?_some hk
    rw [Shaped, hkey, ht, keyValue, hname]

/-- The default of a field that refers to an enum is a number, that of one that refers to a message is null. -/
theorem default_of_reference (hg : g.Final) {c m : Node} {f : Schema.Field} {r : Schema.Reference} (hc : c ∈ g.nodes)
    (hb : c.body = .field f) (ht : f.type = .single (.reference r)) (hm : r.target.bind g.node? = some m) :
    if m.kind = .enum then ∃ k, f.default = .int k else f.default = .null := by
  have hdefault := hg.default hc hb
  rw [Node.kind]
  cases hbody : m.body with
  | enum values =>
    rw [if_pos (show (Schema.Body.enum values).kind = .enum from rfl)]
    exact Graph.defaultOf_enum hdefault ht hm hbody
  | _ =>
    simp only [Graph.defaultOf, ht, hm, hbody] at hdefault
    rw [if_neg (by simp [Schema.Body.kind])]
    exact (Except.ok.inj hdefault).symm

/-- A message field that was never set holds null. -/
theorem default_of_message (hg : g.Final) {c : Node} {f : Schema.Field} {leaf : Leaf} {type : String}
    (hc : c ∈ g.nodes) (hb : c.body = .field f) (ht : f.type = .single leaf)
    (he : elementOfLeaf? g leaf = some (.message type)) : f.default = .null := by
  cases leaf with
  | scalar k => cases he
  | reference r =>
    obtain ⟨m, hm, he⟩ := Option.bind_eq_some_iff.mp he
    have hdefault := default_of_reference hg hc hb ht hm
    split at hdefault
    next hk => simp [hk] at he
    next => exact hdefault

/-- The codec of a field has the contents of its description. -/
theorem codec_matches (h : Buildable g) (hg : g.Final) (hf : Faithful g t) (ht : lib.tree = t)
    (hn : n ∈ g.nodes) (hk : n.kind = .message) (owner : String) {dialect : String}
    {x : Node × Schema.Field} {d : Reflection.Field} (hx : x ∈ fieldsOf g n)
    (hd : DescribesField g dialect x.1 x.2 d) (hone : d.oneof = x.2.oneof) :
    ∃ p, declaredCodec? g owner x.1 x.2 = some p ∧ p.number = x.2.tag ∧ x.2.type.arity? = some p.arity ∧ Matches lib d p := by
  obtain ⟨c, f⟩ := x
  obtain ⟨hchild, hb⟩ := mem_fieldsOf.mp hx
  have hc := ((hg.mem_childrenOf hn).mp hchild).1
  obtain ⟨e, he, hlib⟩ := elementOf?_describes h.toLegible hg hf ht hc hb hd
  obtain ⟨arity, harity⟩ := h.arities n hn hk (c, f) hx
  have hshape := shaped_describes harity hd
  have hattr : Naming.attributeName c.name ∈ attributesOf g n :=
    List.mem_append_left _ (List.mem_map.mpr ⟨(c, f), hx, rfl⟩)
  refine ⟨⟨Naming.attributeName c.name, privateName owner (Naming.attributeName c.name), f.tag, e, arity, some e, some e⟩,
    ?_, rfl, harity, ?_⟩
  · simp only [declaredCodec?, he, harity]
    rfl
  · exact {
      target := (privateName_of_unhidden (h.unhidden n hn hk _ hattr)).trans hd.attr.symm
      id := hd.id
      element := hlib
      read := rfl
      made := rfl
      shape := hshape
      grouped := fun hne => by
        obtain ⟨leaf, ht⟩ := (Reflection.Final.fits hg hc hb).2.single (hone ▸ hne)
        rw [ht] at harity
        exact (Option.some.inj harity).symm
      unset := fun type htype hsingle => by
        have hsingle : arity = .single := hsingle
        have htype : e = .message type := htype
        rw [hd.newDefault]
        cases hft : f.type with
        | single leaf =>
          rw [hft] at he
          exact default_of_message hg hc hb hft (he.trans (congrArg some htype))
        | repeated leaf =>
          rw [hft, hsingle] at harity
          cases harity
        | map key leaf =>
          rw [hft, hsingle, Schema.ValueType.arity?] at harity
          cases hkey : Scalar.ofName? key <;> rw [hkey] at harity <;> cases harity }

/-- The attributes of the members of a group. -/
def membersOf (g : Graph) (n : Node) (group : Schema.OneofGroup) : List String :=
  (fieldsOf g n).filterMap fun x => if x.2.oneof = some group.name then some (Naming.attributeName x.1.name) else none

theorem mem_membersOf {group : Schema.OneofGroup} {a : String} : a ∈ membersOf g n group ↔
    ∃ x ∈ fieldsOf g n, x.2.oneof = some group.name ∧ Naming.attributeName x.1.name = a := by
  simp [membersOf, List.mem_filterMap, Option.ite_none_right_eq_some]

/-- The descriptors of a group are those of its members and, if it has any, its own. -/
theorem mem_groupDescriptors (h : Attributed g) (hn : n ∈ g.nodes) (hk : n.kind = .message) {owner key : String}
    {group : Schema.OneofGroup} {w : Descriptor} (hgroup : group ∈ n.oneofs) :
    (key, w) ∈ groupDescriptors owner (fieldsOf g n) group ↔
      (key ∈ membersOf g n group ∧ w = .member key (Naming.attributeName group.name)) ∨
        (membersOf g n group ≠ [] ∧ key = Naming.attributeName group.name ∧ w = .group key (membersOf g n group)) := by
  have hown {a : String} (ha : a ∈ attributesOf g n) : privateName owner a = a :=
    privateName_of_unhidden (h.unhidden n hn hk a ha)
  have hgroupAttr := hown (List.mem_append_right _ (List.mem_map.mpr ⟨group, hgroup, rfl⟩))
  have hmemberAttr : ∀ a ∈ membersOf g n group, privateName owner a = a := by
    intro a ha
    obtain ⟨x, hx, -, rfl⟩ := mem_membersOf.mp ha
    exact hown (List.mem_append_left _ (List.mem_map.mpr ⟨x, hx, rfl⟩))
  have hmembers : (membersOf g n group).map
      (fun m => (privateName owner m, Descriptor.member (privateName owner m) (Naming.attributeName group.name))) =
      (membersOf g n group).map fun m => (m, .member m (Naming.attributeName group.name)) :=
    List.map_congr_left fun a ha => by rw [hmemberAttr a ha]
  show (key, w) ∈ (if (membersOf g n group).isEmpty then [] else (membersOf g n group).map
    (fun m => (privateName owner m, Descriptor.member (privateName owner m) (Naming.attributeName group.name))) ++
      [(privateName owner (Naming.attributeName group.name),
        .group (privateName owner (Naming.attributeName group.name)) (membersOf g n group))]) ↔ _
  rw [hgroupAttr, hmembers]
  cases hlist : membersOf g n group with
  | nil => simp
  | cons a rest =>
    simp only [List.isEmpty_cons, Bool.false_eq_true, if_false, List.mem_append, List.mem_map, Prod.mk.injEq,
      List.mem_singleton, ne_eq, reduceCtorEq, not_false_eq_true, true_and]
    constructor
    · rintro (⟨b, hb, rfl, rfl⟩ | ⟨rfl, rfl⟩)
      · exact .inl ⟨hb, rfl⟩
      · exact .inr ⟨rfl, rfl⟩
    · rintro (⟨hb, rfl⟩ | ⟨rfl, rfl⟩)
      · exact .inl ⟨key, hb, rfl, rfl⟩
      · exact .inr ⟨rfl, rfl⟩

/-- Each attribute has the descriptor that its group gives it. -/
theorem descriptor?_eq_some (h : Attributed g) (hn : n ∈ g.nodes) (hk : n.kind = .message) {key : String}
    {w : Descriptor} : (declaredClass g t n).descriptor? key = some w ↔
      ∃ group ∈ n.oneofs, (key, w) ∈ groupDescriptors (Codegen.className n) (fieldsOf g n) group := by
  obtain ⟨hfields, hgroups, hapart⟩ := List.nodup_append.mp (h.distinct n hn hk)
  have hmember {a : String} {group : Schema.OneofGroup} (ha : a ∈ membersOf g n group) :
      ∃ x ∈ fieldsOf g n, x.2.oneof = some group.name ∧ Naming.attributeName x.1.name = a := mem_membersOf.mp ha
  have happ {a : String} {group group' : Schema.OneofGroup} (ha : a ∈ membersOf g n group)
      (hgroup' : group' ∈ n.oneofs) : a ≠ Naming.attributeName group'.name := by
    obtain ⟨x, hx, -, rfl⟩ := hmember ha
    exact hapart _ (List.mem_map.mpr ⟨x, hx, rfl⟩) _ (List.mem_map.mpr ⟨group', hgroup', rfl⟩)
  have hunique : ∀ group ∈ n.oneofs, ∀ group' ∈ n.oneofs, ∀ w w',
      (key, w) ∈ groupDescriptors (Codegen.className n) (fieldsOf g n) group →
      (key, w') ∈ groupDescriptors (Codegen.className n) (fieldsOf g n) group' → w' = w := by
    intro group hgroup group' hgroup' w w' hw hw'
    rcases (mem_groupDescriptors h hn hk hgroup).mp hw with ⟨ha, rfl⟩ | ⟨-, hkey, rfl⟩ <;>
      rcases (mem_groupDescriptors h hn hk hgroup').mp hw' with ⟨ha', rfl⟩ | ⟨-, hkey', rfl⟩
    · obtain ⟨x, hx, hone, hattr⟩ := hmember ha
      obtain ⟨y, hy, hone', hattr'⟩ := hmember ha'
      obtain rfl := List.inj_on_of_nodup_map hfields hx hy (hattr.trans hattr'.symm)
      rw [Option.some.inj (hone.symm.trans hone')]
    · exact absurd hkey' (happ ha hgroup')
    · exact absurd hkey (happ ha' hgroup)
    · rw [List.inj_on_of_nodup_map hgroups hgroup hgroup' (hkey.symm.trans hkey')]
  constructor
  · exact fun hw => List.mem_flatMap.mp (Entries.mem_ofList (Entries.mem_of_lookup hw))
  · rintro ⟨group, hgroup, hw⟩
    have hmem := List.mem_flatMap.mpr ⟨group, hgroup, hw⟩
    refine (Entries.lookup_ofList fun w' hw' => ?_).trans (if_pos (List.mem_map.mpr ⟨_, hmem, rfl⟩))
    obtain ⟨group', hgroup', hw'⟩ := List.mem_flatMap.mp hw'
    exact hunique group hgroup group' hgroup' w w' hw hw'

/-- The group of a field is declared. -/
theorem oneof_declared (hg : g.Final) (hn : n ∈ g.nodes) (hk : n.kind = .message) {x : Node × Schema.Field}
    (hx : x ∈ fieldsOf g n) {name : String} (hone : x.2.oneof = some name) : ∃ group ∈ n.oneofs, group.name = name := by
  have hmembers := (hg.tidy _ n (hg.node?_of_mem hn) hk).members
  have hmem : (x.1.name, name) ∈ (g.fieldsUnder n.index).filterMap fun y => y.2.oneof.map (y.1, ·) := by
    rw [Reflection.fieldsUnder_eq hg.toArena hn]
    exact List.mem_filterMap.mpr ⟨(x.1.name, x.2), List.mem_map.mpr ⟨x, hx, rfl⟩, by rw [hone]; rfl⟩
  rw [← hmembers] at hmem
  obtain ⟨group, hgroup, hin⟩ := List.mem_flatMap.mp hmem
  obtain ⟨_, -, he⟩ := List.mem_map.mp hin
  exact ⟨group, hgroup, (Prod.mk.inj he).2⟩

/-- **The attribute of a field is served as its group says.** -/
theorem declaredClass_descriptor (h : Attributed g) (hg : g.Final) (hn : n ∈ g.nodes) (hk : n.kind = .message)
    {x : Node × Schema.Field} (hx : x ∈ fieldsOf g n) :
    (declaredClass g t n).descriptor? (Naming.attributeName x.1.name) =
      (x.2.oneof.map Naming.attributeName).map (.member (Naming.attributeName x.1.name)) := by
  obtain ⟨hfields, -, hapart⟩ := List.nodup_append.mp (h.distinct n hn hk)
  cases hone : x.2.oneof with
  | none =>
    refine Option.eq_none_iff_forall_ne_some.mpr fun w hw => ?_
    obtain ⟨group, hgroup, hw⟩ := (descriptor?_eq_some h hn hk).mp hw
    rcases (mem_groupDescriptors h hn hk hgroup).mp hw with ⟨ha, -⟩ | ⟨-, hkey, -⟩
    · obtain ⟨y, hy, hone', hattr⟩ := mem_membersOf.mp ha
      obtain rfl := List.inj_on_of_nodup_map hfields hy hx hattr
      rw [hone] at hone'
      cases hone'
    · exact hapart _ (List.mem_map.mpr ⟨x, hx, rfl⟩) _ (List.mem_map.mpr ⟨group, hgroup, rfl⟩) hkey
  | some name =>
    obtain ⟨group, hgroup, rfl⟩ := oneof_declared hg hn hk hx hone
    exact (descriptor?_eq_some h hn hk).mpr ⟨group, hgroup,
      (mem_groupDescriptors h hn hk hgroup).mpr (.inl ⟨mem_membersOf.mpr ⟨x, hx, hone, rfl⟩, rfl⟩)⟩

/-! ## Whole classes -/

theorem filterMap_of_forall₂ {α β γ : Type} {R : α → β → Prop} {T : β → γ → Prop} {f : α → Option γ}
    {as : List α} {bs : List β} (h : List.Forall₂ R as bs)
    (hf : ∀ a ∈ as, ∀ b, R a b → ∃ c, f a = some c ∧ T b c) : List.Forall₂ T bs (as.filterMap f) := by
  induction h with
  | nil => exact .nil
  | @cons a b as bs hR _ ih =>
    obtain ⟨c, hc, hT⟩ := hf a (by simp) b hR
    rw [List.filterMap_cons_some hc]
    exact .cons hT (ih fun a' ha' => hf a' (List.mem_cons_of_mem a ha'))

/-- The tree has the described fields of a message. -/
theorem declaredClass_fields (hg : g.Final) (hf : Faithful g t) (hn : n ∈ g.nodes) (hk : n.kind = .message) :
    ∃ dialect, List.Forall₂ (fun x d => DescribesField g dialect x.1 x.2 d ∧ d.oneof = x.2.oneof)
      (fieldsOf g n) (declaredClass g t n).fields := by
  have h0 := Reflection.IsType.index_ne hg.toArena hn (.inl hk)
  obtain ⟨-, o, ho, hdesc⟩ := hf.object n hn h0 (Reflection.IsType.documented (.inl hk))
  have hbody := hdesc.body
  cases hb : n.body with
  | message dialect groups =>
    rw [Reflection.DescribesBody, hb] at hbody
    obtain ⟨fields, hfields, hall⟩ := hbody
    have hlook : t.index.lookup n.fullName = some o := ho
    refine ⟨dialect, ?_⟩
    simp only [declaredClass, hlook, Option.map_some, Option.getD_some, Reflection.Object.fields, hfields]
    exact hall
  | _ => rw [Node.kind, hb] at hk; cases hk

theorem declaredClass_attrs (hg : g.Final) (hf : Faithful g t) (hn : n ∈ g.nodes) (hk : n.kind = .message) :
    (declaredClass g t n).fields.map (·.attr) = (fieldsOf g n).map fun x => Naming.attributeName x.1.name := by
  obtain ⟨dialect, hfields⟩ := declaredClass_fields hg hf hn hk
  exact map_eq_of_forall₂ (fun _ _ hd => hd.1.attr) hfields

/-- The fields of a message are served under attributes of their own. -/
theorem declaredClass_arranged (h : Attributed g) (hg : g.Final) (hf : Faithful g t) (hn : n ∈ g.nodes)
    (hk : n.kind = .message) : Arranged (declaredClass g t n) := by
  obtain ⟨dialect, hfields⟩ := declaredClass_fields hg hf hn hk
  refine ⟨declaredClass_attrs hg hf hn hk ▸ (List.nodup_append.mp (h.distinct n hn hk)).1, fun d hd => ?_⟩
  obtain ⟨x, hx, hdesc, hone⟩ := forall₂_mem hfields.flip hd
  rw [hdesc.attr, declaredClass_descriptor h hg hn hk hx, Reflection.Field.oneofAttr, hone]

/-- **The two sides of a class describe the same fields.** -/
theorem declaredClass_paired (h : Buildable g) (hg : g.Final) (hf : Faithful g t) (ht : lib.tree = t)
    (hn : n ∈ g.nodes) (hk : n.kind = .message) : Paired lib (declaredClass g t n) := by
  obtain ⟨dialect, hfields⟩ := declaredClass_fields hg hf hn hk
  refine ⟨declaredClass_arranged h.attributed hg hf hn hk, filterMap_of_forall₂ hfields fun x hx d hd => ?_⟩
  obtain ⟨p, hp, -, -, hmatches⟩ := codec_matches h hg hf ht hn hk (Codegen.className n) hx hd.1 hd.2
  exact ⟨p, hp, hmatches⟩

theorem mem_codecs {p : FieldCodec} : p ∈ (declaredClass g t n).codecs ↔
    ∃ x ∈ fieldsOf g n, declaredCodec? g (Codegen.className n) x.1 x.2 = some p := by
  simp [declaredClass]

theorem declaredCodec?_element {owner : String} {x : Node × Schema.Field} {p : FieldCodec}
    (h : declaredCodec? g owner x.1 x.2 = some p) : elementOfLeaf? g x.2.type.leaf = some p.element := by
  obtain ⟨e, he, h⟩ := Option.bind_eq_some_iff.mp h
  obtain ⟨arity, -, h⟩ := Option.bind_eq_some_iff.mp h
  cases h
  exact he

/-! ## Libraries -/

/-- The nodes of a kind have names of their own. -/
theorem names_nodup (hg : g.Arena) (k : Schema.Kind) : ((g.nodes.filter (·.kind = k)).map (·.fullName)).Nodup :=
  List.Nodup.map_on (fun _ hn _ hm he => hg.unique (List.mem_of_mem_filter hn) (List.mem_of_mem_filter hm) he)
    (hg.nodup.filter _)

/-- Of what is made for the nodes of a kind, that for a node is found by the name of the node. -/
theorem find?_made {α : Type} {k : Schema.Kind} {make : Node → α} {type : String} {c : α} (name : α → String)
    (hg : g.Arena) (hname : ∀ n, name (make n) = n.fullName) :
    ((g.nodes.filter (·.kind = k)).map make).find? (name · == type) = some c ↔
      ∃ n ∈ g.nodes, n.kind = k ∧ n.fullName = type ∧ c = make n := by
  constructor
  · intro hc
    obtain ⟨n, hn, rfl⟩ := List.mem_map.mp (List.mem_of_find?_eq_some hc)
    simp only [List.mem_filter, decide_eq_true_eq] at hn
    exact ⟨n, hn.1, hn.2, by simpa [hname] using List.find?_some hc, rfl⟩
  · rintro ⟨n, hn, hk, rfl, rfl⟩
    have hnodup : (((g.nodes.filter (·.kind = k)).map make).map name).Nodup := by
      simpa only [List.map_map, Function.comp_def, hname] using names_nodup hg k
    have hmem : make n ∈ (g.nodes.filter (·.kind = k)).map make := List.mem_map.mpr ⟨n, by simpa using ⟨hn, hk⟩, rfl⟩
    simpa only [hname] using find?_of_nodup hnodup hmem

namespace Library.Serves

/-- The class of a message is found by its name. -/
theorem message?_eq_some (h : lib.Serves g t) (hg : g.Arena) {type : String} {c : MessageClass} :
    lib.message? type = some c ↔
      ∃ n ∈ g.nodes, n.kind = .message ∧ n.fullName = type ∧ c = declaredClass g t n := by
  rw [Library.message?, h.messages]
  exact find?_made MessageClass.fullName hg fun _ => rfl

/-- The classes of a graph are paired. -/
theorem paired (hlib : lib.Serves g t) (h : Buildable g) (hg : g.Final) (hf : Faithful g t) : lib.IsPaired := by
  intro type c hc
  obtain ⟨n, hn, hk, -, rfl⟩ := (hlib.message?_eq_some hg.toArena).mp hc
  exact declaredClass_paired h hg hf hlib.tree hn hk

end Library.Serves

/-- Where every name of a graph has a meaning and names are clear, the library is there, and it has the declared classes. -/
theorem Legible.exists_library [Source.CharacterNames] {sources : Schema.Sources} {s : Schema.Loader}
    {o : Codegen.Options}
    (hload : Schema.loadSources sources .empty = .ok g s) (h : Legible g) (hclear : ClearFor g o) (t : Tree) :
    ∃ lib, Library.ofGraph g o t = .ok lib ∧ lib.Serves g t := by
  obtain ⟨p, hp, hclear⟩ := hclear
  have hg := Schema.loadSources_final Graph.empty_formed hload
  have hbuildable := h.buildable hload hp
  obtain rfl := Codegen.Program.graph_eq hp
  have hcodecs : ∀ n ∈ p.graph.nodes, n.kind = .message → ∀ x ∈ fieldsOf p.graph n,
      ∃ c, declaredCodec? p.graph (Codegen.className n) x.1 x.2 = some c := fun n hn hk x hx => by
    obtain ⟨hchild, hb⟩ := mem_fieldsOf.mp hx
    obtain ⟨arity, harity⟩ := hbuildable.arities n hn hk x hx
    obtain ⟨e, he⟩ := h.exists_element hg ((hg.mem_childrenOf hn).mp hchild).1 hb
    exact ⟨_, by rw [declaredCodec?, he, harity]; rfl⟩
  have htargets : ∀ n ∈ p.graph.nodes, n.kind = .service → ∀ x ∈ methodsOf p.graph n,
      Targeted p.graph x.2.request ∧ Targeted p.graph x.2.response := fun n hn _ x hx => by
    obtain ⟨hchild, hb⟩ := mem_methodsOf.mp hx
    exact h.targeted hg ((hg.mem_childrenOf hn).mp hchild).1 hb
  obtain ⟨lib, hlib, hserves⟩ := hclear.exists_library hg.toArena t hcodecs htargets
  exact ⟨lib, Library.ofGraph_eq_ok.mpr ⟨p, hp, hlib⟩, hserves⟩

theorem Library.GeneratedFrom.unique {o : Codegen.Options} {lib' : Library} (h : lib.GeneratedFrom g o)
    (h' : lib'.GeneratedFrom g o) : lib = lib' := by
  obtain ⟨d, t, hd, ht, hlib⟩ := h
  obtain ⟨d', t', hd', ht', hlib'⟩ := h'
  obtain rfl : d = d' := Except.ok.inj (hd.symm.trans hd')
  obtain rfl : t = t' := Except.ok.inj (ht.symm.trans ht')
  exact Except.ok.inj (hlib.symm.trans hlib')

/-- **The classes generated for loaded sources with clear names are those that their graph declares.** They are bound to
a faithful image of the graph. -/
theorem Legible.generated [Source.CharacterNames] {sources : Schema.Sources} {s : Schema.Loader} {o : Codegen.Options}
    (hload : Schema.loadSources sources .empty = .ok g s) (h : Legible g) (hclear : ClearFor g o) :
    ∃ lib : Library, lib.GeneratedFrom g o ∧ lib.Serves g lib.tree ∧ Faithful g lib.tree := by
  obtain ⟨d, t, hd, ht, hf⟩ := Reflection.ofJson_faithful (Schema.loadSources_final Graph.empty_formed hload) h.groups
  obtain ⟨lib, hlib, hserves⟩ := h.exists_library hload hclear t
  obtain rfl := hserves.tree
  exact ⟨lib, ⟨d, lib.tree, hd, ht, hlib⟩, hserves, hf⟩

/-- The fields of a message with their names, numbers and groups. -/
def fieldNames (g : Graph) (n : Schema.Node) : List (String × Int × Option String) :=
  (fieldsOf g n).map fun x => (x.1.name, x.2.tag, x.2.oneof)

/-- A message in a field of another one, whose name is that of a parameter of the method that decodes it. -/
def shadowed : Graph where
  nodes := [{ Graph.root with children := [1, 3] },
    { name := "reader", body := .message "proto2" [], index := 1, parent := some 0, children := [2],
      fullName := "reader", file := some "a.proto" },
    { name := "x", body := .field { tag := 1, type := .single (.scalar .int32), default := .int 0 }, index := 2,
      parent := some 1, children := [], fullName := "reader.x", file := some "a.proto" },
    { name := "B", body := .message "proto2" [], index := 3, parent := some 0, children := [4], fullName := "B",
      file := some "a.proto" },
    { name := "r", body := .field { tag := 1, type := .single (.reference ⟨"reader", some 1⟩), default := .null },
      index := 4, parent := some 3, children := [], fullName := "B.r", file := some "a.proto" }]
  files := ["a.proto"]
  byName := [("", 0), ("reader", 1), ("reader.x", 2), ("B", 3), ("B.r", 4)]
  finalized := true

end ProtoBind.Message
