/-
Field numbers on the wire.

A validated document holds documents that fit their shapes at every depth
(`validated`), so the fields of every message have positive numbers. Their
keys have room for 29 bits of a number: a key is read back as the number
modulo `2 ^ 29` with its wire type, and two fields of a message have one key
when their numbers are the same modulo `2 ^ 29` (`keys_of_described`).
-/
import ProtoBind.Proofs.Reflection.Index
import ProtoBind.Proofs.Schema.Loaded
import ProtoBind.Proofs.Schema.Printed
import ProtoBind.Proofs.Wire.Scalars
import ProtoBind.Reflection.Description

namespace ProtoBind

/-! ## Keys -/

namespace Wire

/-- A key depends on the low 29 bits of the number. -/
theorem key_mod (number : Int) (w : Nat) : key (number % 2 ^ 29) w = key number w := by
  have hreduce : reduce 32 (8 * (number % 2 ^ 29)) = reduce 32 (8 * number) := by
    simp only [reduce, Nat.pow_eq]
    omega
  rw [key, key, hreduce]

theorem key_takes (number : Int) {w : Nat} (hw : w < 8) :
    Takes Reader.uint32 (key number w) (8 * (number % 2 ^ 29).toNat + w) := by
  have htakes := Reader.uint32_takes (key_grammar (show 0 ≤ number % 2 ^ 29 by omega) (by omega) hw)
  rw [key_mod] at htakes
  rwa [Nat.mod_eq_of_lt] at htakes
  simp only [Nat.pow_eq]
  omega

theorem key_inj {a b : Int} {w v : Nat} (hw : w < 8) (hv : v < 8) :
    key a w = key b v ↔ w = v ∧ a % 2 ^ 29 = b % 2 ^ 29 := by
  constructor
  · intro h
    have hsame := ((key_takes a hw).unique (key_takes b hv) (congrArg (· ++ []) h)).2.1
    omega
  · rintro ⟨rfl, h⟩
    rw [← key_mod a, h, key_mod]

end Wire

namespace Reflection

open Schema (Graph Node)
open Message (fieldsOf)

variable {g : Graph} {n p : Node} {fuel : Nat} {required : List String} {properties : List (String × Shape)}
  {others : Option Shape} {entries : List (String × Json)} {name : ShapeName}

/-! ## Shapes of objects -/

theorem holds_record (h : (Shape.record required properties others).holds fuel (.object entries) = true) :
    (∀ k ∈ required, (entries.lookup k).isSome) ∧ ∀ e ∈ entries, ∃ shape k,
      (properties.lookup e.1).or others = some shape ∧ shape.holds k e.2 = true := by
  cases fuel with
  | zero => cases h
  | succ k =>
    simp only [Shape.holds, Bool.and_eq_true, List.all_eq_true] at h
    refine ⟨h.1, fun e he => ?_⟩
    have hentry := h.2 e he
    cases hp : properties.lookup e.1 with
    | some shape =>
      rw [hp] at hentry
      exact ⟨shape, k, rfl, hentry⟩
    | none =>
      rw [hp] at hentry
      cases others with
      | some shape => exact ⟨shape, k, rfl, hentry⟩
      | none => cases hentry

theorem holds_named {j : Json} (h : (Shape.named name).holds fuel j = true) :
    ∃ k, (Shape.definition name).holds k j = true := by
  cases fuel with
  | zero => cases h
  | succ k => exact ⟨k, by rwa [Shape.holds] at h⟩

theorem holds_anyOf {names : List ShapeName} {j : Json} (h : (Shape.anyOf names).holds fuel j = true) :
    ∃ k, ∃ name ∈ names, (Shape.definition name).holds k j = true := by
  cases fuel with
  | zero => cases h
  | succ k => exact ⟨k, List.any_eq_true.mp (by rwa [Shape.holds] at h)⟩

/-- What stands inside a document fits one of these. -/
theorem holds_nested (h : (Shape.named .nested).holds fuel (.object entries) = true) : ∀ e ∈ entries,
    ∃ k, ∃ name ∈ Shape.innerShapes, (Shape.definition name).holds k e.2 = true := by
  intro e he
  obtain ⟨k, hmapping⟩ := holds_named h
  obtain ⟨shape, k, hshape, hholds⟩ := (holds_record hmapping).2 e he
  obtain rfl : Shape.anyOf Shape.innerShapes = shape := Option.some.inj hshape
  exact holds_anyOf hholds

/-- What has fields is no other document than that of a message. -/
theorem shape_of_fields (h : (Shape.definition name).holds fuel (.object entries) = true) (hname : name ∈ Shape.innerShapes)
    {j : Json} (hf : ("fields", j) ∈ entries) : name = .message := by
  cases name with
  | message => rfl
  | nested | field | method => simp [Shape.innerShapes] at hname
  | package | enum | service | extension =>
    obtain ⟨shape, k, hshape, -⟩ := (holds_record h).2 _ hf
    cases hshape

/-- What holds nothing but inner documents is no other document than that of a package. -/
theorem shape_of_package {j : Json} (h : (Shape.definition name).holds fuel (.object [("nested", j)]) = true)
    (hname : name ∈ Shape.innerShapes) : name = .package := by
  cases name with
  | package => rfl
  | nested | field | method => simp [Shape.innerShapes] at hname
  | message | enum | service | extension =>
    have hrequired := (holds_record h).1 _ List.mem_cons_self
    cases hrequired

/-! ## Validated documents -/

/-- The shape of the documents of packages and messages. -/
def spaceShape (n : Node) : ShapeName := if n.kind = .message then .message else .package

/-- The node has a document that fits its shape. -/
def Validated (g : Graph) (n : Node) : Prop :=
  ∃ fuel j k, nodeJson g fuel n = .ok j ∧ (Shape.definition (spaceShape n)).holds k j = true

/-- The document of a package or a message is an object with all that stands inside it. -/
theorem bodyJson_space {nested : List (String × Json)} (hk : n.kind = .package ∨ n.kind = .message) :
    ∃ entries, bodyJson g n nested = .object entries ∧ (nested ≠ [] → ("nested", .object nested) ∈ entries) ∧
      (n.kind = .package → entries = [("nested", .object nested)]) ∧
      (n.kind = .message → ("fields", .object (fieldsJson g n)) ∈ entries) := by
  cases hb : n.body with
  | package => exact ⟨_, by rw [bodyJson, hb], by simp, by simp, by simp [Node.kind, hb, Schema.Body.kind]⟩
  | message dialect groups =>
    refine ⟨_, by rw [bodyJson, hb], fun hne => ?_, by simp [Node.kind, hb, Schema.Body.kind], by simp⟩
    simp [hne]
  | _ => simp [Node.kind, hb, Schema.Body.kind] at hk

/-- The properties of packages and messages have the inner documents in common. -/
theorem holds_inner {nested : List (String × Json)} (hk : n.kind = .package ∨ n.kind = .message)
    (h : (Shape.definition (spaceShape n)).holds fuel (.object entries) = true)
    (hin : ("nested", .object nested) ∈ entries) : ∃ k, (Shape.named .nested).holds k (.object nested) = true := by
  rcases hk with hk | hk
  · rw [spaceShape, if_neg (by rw [hk]; decide)] at h
    obtain ⟨shape, k, hshape, hholds⟩ := (holds_record h).2 _ hin
    obtain rfl : Shape.named .nested = shape := Option.some.inj hshape
    exact ⟨k, hholds⟩
  · rw [spaceShape, if_pos hk] at h
    obtain ⟨shape, k, hshape, hholds⟩ := (holds_record h).2 _ hin
    obtain rfl : Shape.named .nested = shape := Option.some.inj hshape
    exact ⟨k, hholds⟩

/-- What stands inside a validated document is validated. -/
theorem Validated.inner (h : Validated g p) (hp : p.kind = .package ∨ p.kind = .message) (hn : n ∈ innerNodes g p)
    (hk : n.kind = .package ∨ n.kind = .message) : Validated g n := by
  obtain ⟨fuel, j, k, hj, hholds⟩ := h
  have hnot {m : Node} (hm : m.kind = .package ∨ m.kind = .message) : m.kind ≠ .method := by
    rcases hm with hm | hm <;> rw [hm] <;> decide
  cases fuel with
  | zero => cases hj
  | succ fuel =>
    obtain ⟨nested, hdocs, rfl⟩ := (nodeJson_eq_ok (hnot hp)).mp hj
    obtain ⟨e, he, -, hdoc⟩ := forall₂_mem hdocs hn
    obtain ⟨entries, hentries, hnested, -⟩ := @bodyJson_space g p nested hp
    rw [hentries] at hholds
    obtain ⟨k', hinner⟩ := holds_inner hp hholds (hnested (List.ne_nil_of_mem he))
    obtain ⟨k'', name, hname, hshape⟩ := holds_nested hinner e he
    refine ⟨fuel, e.2, k'', hdoc, ?_⟩
    cases fuel with
    | zero => cases hdoc
    | succ fuel =>
      obtain ⟨nested', -, hbody⟩ := (nodeJson_eq_ok (hnot hk)).mp hdoc
      obtain ⟨entries', hentries', -, hpackage, hmessage⟩ := @bodyJson_space g n nested' hk
      rw [hbody, hentries'] at hshape ⊢
      rcases hk with hk | hk
      · rw [hpackage hk] at hshape ⊢
        rw [spaceShape, if_neg (by rw [hk]; decide), ← shape_of_package hshape hname]
        exact hshape
      · rw [spaceShape, if_pos hk, ← shape_of_fields hshape hname (hmessage hk)]
        exact hshape

/-- The description of a graph whose document is at hand. -/
theorem describe_of_document {d : Json} (hd : document g = .ok d) : describe g true =
    if isValid d then if d.isWritable then .ok (d.text ++ "\n") else .error .unwritable
    else .error (if (refusedParts d).all Json.isWritable then .invalid else .unwritable) := by
  rw [describe, hd]
  dsimp only
  cases isValid d <;> rfl

/-- What is described is valid. -/
theorem valid_of_described {text : String} (h : describe g true = .ok text) :
    ∃ d, document g = .ok d ∧ isValid d = true := by
  cases hd : document g with
  | error m =>
    rw [describe, hd] at h
    cases h
  | ok d =>
    rw [describe_of_document hd] at h
    split at h
    · exact ⟨d, rfl, ‹_›⟩
    · cases h

/-- Where the document of a graph is validated, those of all packages and messages are. -/
theorem validated (h : g.Formed) {d : Json} (hd : document g = .ok d) (hvalid : isValid d = true) : ∀ (i : Nat)
    {n : Node}, n.index = i → n ∈ g.nodes → n.kind = .package ∨ n.kind = .message → Validated g n := by
  intro i
  induction i using Nat.strongRecOn with
  | ind i ih =>
    intro n hi hn hk
    by_cases h0 : n.index = 0
    · obtain ⟨root, hroot, hpackage, -⟩ := h.root
      have hnode := h.node?_of_mem hn
      rw [h0, hroot, Option.some.injEq] at hnode
      subst hnode
      obtain ⟨k, hholds⟩ := holds_named hvalid
      rw [document, hroot] at hd
      refine ⟨_, d, k, hd, ?_⟩
      rwa [spaceShape, if_neg (by rw [hpackage]; decide)]
    · have hdocumented : Documented g n := by
        refine ⟨?_, fun hf => ?_⟩
        · rcases hk with hk | hk <;> rw [hk] <;> decide
        · rcases hk with hk | hk <;> rw [hk] at hf <;> cases hf
      obtain ⟨p, hp, hlt, -, hin⟩ := mem_innerNodes_parent h hn hdocumented h0
      have hspace : p.kind = .package ∨ p.kind = .message := by
        by_contra hnot
        rw [innerNodes, if_neg hnot] at hin
        cases hin
      exact (ih p.index (hi ▸ hlt) rfl hp hspace).inner hspace hin hk

/-- The fields of a validated message have positive numbers. -/
theorem Validated.number_pos (h : Validated g n) (hk : n.kind = .message) {x : Node × Schema.Field}
    (hx : x ∈ fieldsOf g n) : 1 ≤ x.2.tag := by
  obtain ⟨fuel, j, k, hj, hholds⟩ := h
  cases fuel with
  | zero => cases hj
  | succ fuel =>
    obtain ⟨nested, -, rfl⟩ := (nodeJson_eq_ok (by rw [hk]; decide)).mp hj
    obtain ⟨entries, hentries, -, -, hmessage⟩ := @bodyJson_space g n nested (.inr hk)
    rw [hentries, spaceShape, if_pos hk] at hholds
    -- From the message over its fields and the field to the number.
    obtain ⟨shape, k, hshape, hfields⟩ := (holds_record hholds).2 _ (hmessage hk)
    obtain rfl : Shape.mapping (.named .field) = shape := Option.some.inj hshape
    have hentry : (x.1.name, fieldJson g x.1 x.2) ∈ fieldsJson g n := fieldsJson_eq ▸ List.mem_map_of_mem hx
    obtain ⟨shape, k, hshape, hnamed⟩ := (holds_record hfields).2 _ hentry
    obtain rfl : Shape.named .field = shape := Option.some.inj hshape
    obtain ⟨k, hfield⟩ := holds_named hnamed
    rw [fieldJson_eq] at hfield
    obtain ⟨shape, k, hshape, hnumber⟩ := (holds_record hfield).2 _ (List.mem_cons_of_mem _ List.mem_cons_self)
    obtain rfl : Shape.integer (some 1) = shape := Option.some.inj hshape
    cases k with
    | zero => cases hnumber
    | succ k => simpa [Shape.holds, Shape.isInteger] using hnumber

/-- The fields of a message have different numbers. -/
theorem numbers_nodup (h : g.Formed) (hn : n ∈ g.nodes) (hk : n.kind = .message) :
    ((fieldsOf g n).map (·.2.tag)).Nodup := by
  have htags := (h.tidy n.index n (h.node?_of_mem hn) hk).tags
  rwa [fieldsUnder_eq h.toArena hn, List.map_map] at htags

/-- **The keys of the fields of a validated message.** The numbers are positive. A key is read back with its wire
type and with the number modulo `2 ^ 29`, which is the number exactly below `2 ^ 29`. So the keys of two fields are the
same exactly for the same wire type and numbers that are the same modulo `2 ^ 29`, and below `2 ^ 29` they differ. -/
theorem keys_of_described [Source.CharacterNames] {sources : Schema.Sources} {s : Schema.Loader} {text : String}
    (hload : Schema.loadSources sources .empty = .ok g s) (hd : describe g true = .ok text) (hn : n ∈ g.nodes)
    (hk : n.kind = .message) :
    (∀ x ∈ fieldsOf g n, 1 ≤ x.2.tag ∧ ∀ w : Nat, w < 8 → ∃ key : Nat, Takes Reader.uint32 (Wire.key x.2.tag w) key ∧
      key % 8 = w ∧ ((key / 8 : Nat) : Int) = x.2.tag % 2 ^ 29 ∧
      (((key / 8 : Nat) : Int) = x.2.tag ↔ x.2.tag < 2 ^ 29)) ∧
    ∀ x ∈ fieldsOf g n, ∀ y ∈ fieldsOf g n, ∀ w v : Nat, w < 8 → v < 8 →
      (Wire.key x.2.tag w = Wire.key y.2.tag v ↔ w = v ∧ x.2.tag % 2 ^ 29 = y.2.tag % 2 ^ 29) ∧
      (x ≠ y → x.2.tag < 2 ^ 29 → y.2.tag < 2 ^ 29 → Wire.key x.2.tag w ≠ Wire.key y.2.tag v) := by
  have hg := (Schema.loadSources_final Schema.Graph.empty_formed hload).toFormed
  obtain ⟨d, hdocument, hvalid⟩ := valid_of_described hd
  have hpos {x : Node × Schema.Field} (hx : x ∈ fieldsOf g n) : 1 ≤ x.2.tag :=
    (validated hg hdocument hvalid n.index rfl hn (.inr hk)).number_pos hk hx
  refine ⟨fun x hx => ⟨hpos hx, fun w hw => ⟨_, Wire.key_takes x.2.tag hw, ?_⟩⟩, fun x hx y hy w v hw hv => ?_⟩
  · have hlow := hpos hx
    omega
  · refine ⟨Wire.key_inj hw hv, fun hne hxlt hylt he => hne ?_⟩
    have hsame := ((Wire.key_inj hw hv).mp he).2
    have hxlow := hpos hx
    have hylow := hpos hy
    have htag : x.2.tag = y.2.tag := by omega
    exact List.inj_on_of_nodup_map (numbers_nodup hg hn hk) hx hy htag

/-- A message with two fields whose numbers have the same low 29 bits. -/
def aliasedFiles : List (String × List Source.Decl) :=
  [("a.proto", [.message "M" [.field ⟨some .optional, "int32", "a", 1, [], 1⟩,
    .field ⟨some .optional, "int32", "b", 536870913, [], 1⟩] 1])]

def aliased : Schema.Sources := Schema.printedSources aliasedFiles

/-- The numbers of the fields of each message. -/
def fieldNumbers (g : Graph) : List (List Int) :=
  (g.nodes.filter (·.kind == .message)).map fun n => (fieldsOf g n).map (·.2.tag)

theorem aliased_checked : succeedsWith (Schema.loadSources aliased) .empty
    (fun g => (describe g true).toOption.isSome && fieldNumbers g == [[1, 536870913]]) = true := by
  unfold Schema.loadSources Schema.loadOne
  rw [Schema.Load.load_eq_known aliasedFiles (by decide +kernel)]
  decide +kernel

theorem aliased_described : ∃ g s text, Schema.loadSources aliased .empty = .ok g s ∧ describe g true = .ok text ∧
    ∃ n ∈ g.nodes, n.kind = .message ∧ ∃ x ∈ fieldsOf g n, ∃ y ∈ fieldsOf g n, x.2.tag = 1 ∧ y.2.tag = 536870913 := by
  obtain ⟨g, s, hload, htest⟩ := exists_of_succeedsWith aliased_checked
  rw [Bool.and_eq_true, beq_iff_eq] at htest
  obtain ⟨text, hd⟩ := exists_ok htest.1
  obtain ⟨n, hn, htags⟩ := List.mem_map.mp (htest.2 ▸ List.mem_cons_self)
  rw [List.mem_filter, beq_iff_eq] at hn
  have hmem {number : Int} (h : number ∈ ([1, 536870913] : List Int)) : ∃ x ∈ fieldsOf g n, x.2.tag = number :=
    List.mem_map.mp (htags ▸ h)
  obtain ⟨x, hx, hxtag⟩ := hmem List.mem_cons_self
  obtain ⟨y, hy, hytag⟩ := hmem (List.mem_cons_of_mem _ List.mem_cons_self)
  exact ⟨g, s, text, hload, hd, n, hn.1, hn.2, x, hx, y, hy, hxtag, hytag⟩

/-- The fields 1 and 536870913 of a message have the same keys. -/
theorem keys_of_described_aliased : ∃ g s text, Schema.loadSources aliased .empty = .ok g s ∧
    describe g true = .ok text ∧ ∃ n ∈ g.nodes, n.kind = .message ∧ ∃ x ∈ fieldsOf g n, ∃ y ∈ fieldsOf g n,
      x.2.tag ≠ y.2.tag ∧ ∀ w : Nat, w < 8 → Wire.key x.2.tag w = Wire.key y.2.tag w := by
  obtain ⟨g, s, text, hload, hd, n, hn, hk, x, hx, y, hy, hxtag, hytag⟩ := aliased_described
  refine ⟨g, s, text, hload, hd, n, hn, hk, x, hx, y, hy, by rw [hxtag, hytag]; decide, fun w hw => ?_⟩
  refine ((keys_of_described hload hd hn hk).2 x hx y hy w w hw hw).1.mpr ⟨rfl, ?_⟩
  rw [hxtag, hytag]
  decide

/-- The number 536870913 of a validated message is lost: its key is read as that of number 1. -/
theorem key_lost : ¬ ∀ (sources : Schema.Sources) (g : Graph) (s : Schema.Loader) (text : String),
    Schema.loadSources sources .empty = .ok g s → describe g true = .ok text → ∀ n ∈ g.nodes, n.kind = .message →
      ∀ x ∈ fieldsOf g n, ∀ w : Nat, w < 8 → ∃ key : Nat, Takes Reader.uint32 (Wire.key x.2.tag w) key ∧
        key % 8 = w ∧ ((key / 8 : Nat) : Int) = x.2.tag := by
  intro h
  obtain ⟨g, s, text, hload, hd, n, hn, hk, x, hx, y, hy, hxtag, hytag⟩ := aliased_described
  obtain ⟨a, ha, -, hatag⟩ := h _ g s text hload hd n hn hk x hx 0 (by decide)
  obtain ⟨b, hb, -, hbtag⟩ := h _ g s text hload hd n hn hk y hy 0 (by decide)
  rw [hxtag] at ha hatag
  rw [hytag] at hb hbtag
  have hsame := (ha.unique hb (congrArg (· ++ []) ((Wire.key_inj (by decide) (by decide)).mpr ⟨rfl, by decide⟩))).2.1
  omega

end Reflection
end ProtoBind
