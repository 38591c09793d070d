/-
What reading the document of a single node gives.

The reader tells objects apart by their keys and works out defaults on its
own. For each kind of node this module states the body that comes out
(`rawBody`), before the types in it are looked up, and proves that the reader
finds it (`readBody_nodeJson`).
-/
import ProtoBind.Message.Class
import ProtoBind.Proofs.Entries
import ProtoBind.Proofs.Schema.Final
import ProtoBind.Reflection.Document

namespace ProtoBind

/-- The value is one that fields of the scalar kind hold. -/
def Scalar.Accepts (s : Scalar) (v : Value) : Prop :=
  match s.valueClass with
  | .truth => ∃ b, v = .bool b
  | .floating => ∃ x, v = .float x
  | .integer => ∃ n, v = .int n
  | .octets => ∃ bs, v = .bytes bs
  | .text => ∃ t, v = .text t

theorem Scalar.zero_accepted (s : Scalar) : s.Accepts s.zero := by
  cases s <;> exact ⟨_, rfl⟩

theorem Scalar.convertDefault_accepted {s : Scalar} {raw v : Value}
    (h : s.convertDefault raw = .ok v) : s.Accepts v := by
  unfold convertDefault at h
  unfold Accepts
  cases hs : s.valueClass with
  | truth =>
    rw [hs] at h
    obtain ⟨word, -, rfl⟩ := mapped_ok_iff.mp h
    exact ⟨_, rfl⟩
  | floating =>
    simp only [hs] at h
    obtain ⟨word, -, h⟩ := bind_ok_iff.mp h
    split at h
    · cases h; exact ⟨_, rfl⟩
    split at h
    · cases h; exact ⟨_, rfl⟩
    split at h
    · cases h; exact ⟨_, rfl⟩
    obtain ⟨x, -, rfl⟩ := mapped_ok_iff.mp h
    exact ⟨x, rfl⟩
  | integer =>
    rw [hs] at h
    obtain ⟨n, -, rfl⟩ := mapped_ok_iff.mp h
    exact ⟨n, rfl⟩
  | octets =>
    simp only [hs] at h
    split at h
    · cases h; exact ⟨_, rfl⟩
    · obtain ⟨t, -, rfl⟩ := mapped_ok_iff.mp h
      exact ⟨_, rfl⟩
  | text =>
    rw [hs] at h
    obtain ⟨t, -, rfl⟩ := mapped_ok_iff.mp h
    exact ⟨t, rfl⟩

namespace Schema

/-- The default of a field is of the shape that its type asks for. -/
def Field.DefaultFits (f : Field) : Prop :=
  match f.type with
  | .single (.scalar s) => s.Accepts f.default
  | .single (.reference _) => f.default = .null ∨ ∃ n, f.default = .int n
  | .repeated _ => f.default = .list []
  | .map _ _ => f.default = .dict []

/-- The default of a field that refers to an enum is a number. -/
theorem Graph.defaultOf_enum {g : Graph} {f : Field} {r : Reference} {m : Node} {values : List EnumValue} {v : Value}
    (h : g.defaultOf f = .ok v) (ht : f.type = .single (.reference r)) (hm : r.target.bind g.node? = some m)
    (hb : m.body = .enum values) : ∃ k, v = .int k := by
  simp only [defaultOf, ht, hm, hb] at h
  split at h
  · obtain ⟨name, -, rfl⟩ := mapped_ok_iff.mp h
    exact ⟨_, rfl⟩
  · exact ⟨_, (Except.ok.inj h).symm⟩

theorem Graph.defaultOf_fits {g : Graph} {f : Field} (h : g.defaultOf f = .ok f.default) :
    f.DefaultFits := by
  unfold defaultOf at h
  unfold Field.DefaultFits
  split at h
  next ht => simp only [ht]; exact (Except.ok.inj h).symm
  next ht => simp only [ht]; exact (Except.ok.inj h).symm
  next s ht =>
    simp only [ht]
    split at h
    · exact Scalar.convertDefault_accepted h
    · exact (Except.ok.inj h) ▸ s.zero_accepted
  next r ht =>
    simp only [ht]
    split at h
    · exact .inl (Except.ok.inj h).symm
    next m hm =>
      split at h
      next values hb => exact .inr (defaultOf_enum (by unfold defaultOf; simp only [ht, hm, hb]; exact h) ht hm hb)
      next => exact .inl (Except.ok.inj h).symm

end Schema

namespace Reflection

open Schema (Graph Node Leaf ValueType OneofGroup EnumValue)
open Message (fieldsOf methodsOf)

/-! ## Fields -/

/-- A path is not the name of a scalar kind. -/
theorem ofName?_path (n : Node) : Scalar.ofName? n.path = none := by
  refine List.find?_eq_none.mpr fun k _ hk => ?_
  have hk : k.name = "." ++ n.fullName := beq_iff_eq.mp hk
  have hhead := congrArg (·.toList.head?) hk
  cases k <;> simp [Scalar.name] at hhead

/-- The scalar kind of a leaf. -/
def leafScalar? : Leaf → Option Scalar
  | .scalar s => some s
  | .reference _ => none

theorem ofName?_leafName (g : Graph) {leaf : Leaf} (h : leaf.Sound) :
    Scalar.ofName? (leafName g leaf) = leafScalar? leaf := by
  cases leaf with
  | scalar s => exact Scalar.ofName?_name s
  | reference r =>
    simp only [leafName]
    cases r.target.bind g.node? with
    | none => exact h
    | some n => exact ofName?_path n

/-- The key of a map as the reader keeps it. -/
def keyValue : ValueType → Value
  | .map key _ => .text key
  | _ => .null

/-- The values of a field share one run. -/
def packs (g : Graph) (n : Node) (f : Schema.Field) : Bool :=
  match f.type with
  | .repeated leaf => isPackable g leaf && isPacked g n f
  | _ => false

/-- A default that no document gives. -/
def ownDefault : Leaf → Value
  | .scalar s => s.zero
  | .reference _ => .null

/-- The default that a document gives, if it gives one. -/
def documented? (f : Schema.Field) : Option Value :=
  match f.type, f.default with
  | .single _, .null => none
  | .single _, v => some v
  | _, _ => none

/-- A field as it is read, in a group. -/
def rawField (g : Graph) (parent : String) (n : Node) (f : Schema.Field) (oneof : Option String) :
    Field where
  name := n.name
  fullName := innerName parent n.name
  id := .int f.tag
  type := leafName g f.type.leaf
  typeFault := none
  repeated := f.type.isRepeated
  keyType := keyValue f.type
  extend := match f.extendee with
    | none => .null
    | some e => .text (((f.extendeeTarget.bind g.node?).map (·.path)).getD e)
  packed := .bool (packs g n f)
  attr := Naming.attributeName n.name
  oneof := oneof
  resolved := none
  hasDefault := (documented? f).isSome
  default := (documented? f).getD (ownDefault f.type.leaf)

theorem latin1_ofList (bs : List UInt8) :
    latin1 (String.ofList (bs.map fun b => Char.ofNat b.toNat)) = .ok bs := by
  have hchar (b : UInt8) : (Char.ofNat b.toNat).toNat = b.toNat := by
    have hvalid : b.toNat.isValidChar := .inl (Nat.lt_trans b.toNat_lt (by decide))
    rw [Char.ofNat, dif_pos hvalid]
    rfl
  have hall : ((bs.map fun b => Char.ofNat b.toNat).all fun c => decide (c.toNat < 0x100)) = true := by
    rw [List.all_map, List.all_eq_true]
    intro b _
    have := b.toNat_lt
    simp only [Function.comp, hchar, decide_eq_true_eq]
    omega
  rw [latin1, String.toList_ofList, if_pos hall, List.map_map]
  congr 1
  rw [List.map_congr_left (g := id) fun b _ => ?_, List.map_id]
  simp [hchar]

/-- A default comes back as it was given. -/
theorem givenDefault_defaultJson {g : Graph} {f : Schema.Field} {leaf : Leaf} (hfit : f.DefaultFits)
    (hsound : leaf.Sound) (ht : f.type = .single leaf) (hv : f.default ≠ .null) :
    givenDefault (leafName g leaf) (defaultJson f.default) = .ok f.default := by
  unfold Schema.Field.DefaultFits at hfit
  rw [ht] at hfit
  cases leaf with
  | scalar s =>
    simp only [leafName]
    cases s <;> obtain ⟨x, hx⟩ := hfit <;> rw [hx] <;> first
      | rfl
      | (simp only [defaultJson, givenDefault, Scalar.name, beq_self_eq_true, if_true]
         rw [latin1_ofList]
         rfl)
  | reference r =>
    rcases hfit with hfit | ⟨n, hn⟩
    · exact absurd hfit hv
    · rw [hn]
      rfl

theorem readField_object {parent name type : String} {tag : Int} {rest : List (String × Json)} {v : Value}
    (hv : readDefault (.string type) (rest.lookup "default") = .ok v) :
    readField parent name (.object (("type", .string type) :: ("id", .int tag) :: rest)) = .ok {
      name := name
      fullName := innerName parent name
      id := .int tag
      type := type
      typeFault := none
      repeated := match rest.lookup "rule" with
        | some (.string s) => s == "repeated"
        | _ => false
      keyType := ((rest.lookup "keyType").getD .null).toValue
      extend := ((rest.lookup "extend").getD .null).toValue
      packed := ((rest.lookup "packed").getD (.bool false)).toValue
      attr := Naming.attributeName name
      oneof := none
      resolved := none
      hasDefault := (rest.lookup "default").isSome
      default := v } := by
  have hlook (key : String) (ht : key ≠ "type") (hi : key ≠ "id") :
      (("type", .string type) :: ("id", .int tag) :: rest).lookup key = rest.lookup key := by
    rw [List.lookup_cons, List.lookup_cons, beq_false_of_ne ht, beq_false_of_ne hi]
  have hdefault := hlook "default" (by decide) (by decide)
  rw [← hdefault] at hv
  refine map_ok_iff.mpr ⟨v, hv, ?_⟩
  simp only [Json.get?, hdefault, hlook "rule" (by decide) (by decide),
    hlook "keyType" (by decide) (by decide), hlook "extend" (by decide) (by decide),
    hlook "packed" (by decide) (by decide)]
  rfl

/-- Without a default of its own a descriptor has that of its type. -/
theorem readDefault_none (g : Graph) {leaf : Leaf} (h : leaf.Sound) :
    readDefault (.string (leafName g leaf)) none = .ok (ownDefault leaf) := by
  simp only [readDefault, typeName, ofName?_leafName g h]
  cases leaf <;> rfl

/-- What the descriptor of an extension says of the message it extends. -/
def extendJson (g : Graph) (f : Schema.Field) : List (String × Json) :=
  match f.extendee with
  | none => []
  | some e => [("extend", .string (((f.extendeeTarget.bind g.node?).map (·.path)).getD e))]

theorem lookup_extendJson (g : Graph) (f : Schema.Field) :
    (((extendJson g f).lookup "extend").getD .null).toValue = match f.extendee with
      | none => .null
      | some e => .text (((f.extendeeTarget.bind g.node?).map (·.path)).getD e) := by
  unfold extendJson
  cases f.extendee <;> rfl

theorem lookup_extendJson_of_ne (g : Graph) (f : Schema.Field) {key : String} (h : key ≠ "extend") :
    (extendJson g f).lookup key = none := by
  unfold extendJson
  cases f.extendee with
  | none => rfl
  | some e => rw [List.lookup_cons, beq_false_of_ne h, List.lookup_nil]

/-- The part of a field's descriptor that depends on how many values the field holds. -/
def shapeJson (g : Graph) (n : Node) (f : Schema.Field) : List (String × Json) :=
  match f.type with
  | .repeated leaf =>
    ("rule", .string "repeated") ::
      if isPackable g leaf then [("packed", .bool (isPacked g n f))] else []
  | .map key _ => [("keyType", .string key)]
  | .single _ =>
    match f.default with
    | .null => []
    | v => [("default", defaultJson v)]

theorem fieldJson_eq (g : Graph) (n : Node) (f : Schema.Field) :
    fieldJson g n f = .object (("type", .string (leafName g f.type.leaf)) :: ("id", .int f.tag) ::
      (shapeJson g n f ++ extendJson g f)) := by
  cases ht : f.type <;> simp only [fieldJson, shapeJson, ht, extendJson] <;> rfl

theorem lookup_default_shapeJson {g : Graph} {n : Node} {f : Schema.Field} :
    (shapeJson g n f).lookup "default" = (documented? f).map defaultJson := by
  unfold shapeJson documented?
  cases ht : f.type with
  | single leaf => cases f.default <;> rfl
  | repeated leaf =>
    dsimp only
    split <;> rfl
  | map key leaf => rfl

theorem lookup_rule_shapeJson {g : Graph} {n : Node} {f : Schema.Field} :
    (match (shapeJson g n f).lookup "rule" with
      | some (.string s) => s == "repeated"
      | _ => false) = f.type.isRepeated := by
  unfold shapeJson
  cases ht : f.type with
  | single leaf => cases f.default <;> rfl
  | repeated leaf => rfl
  | map key leaf => rfl

theorem lookup_keyType_shapeJson {g : Graph} {n : Node} {f : Schema.Field} :
    (((shapeJson g n f).lookup "keyType").getD .null).toValue = keyValue f.type := by
  unfold shapeJson
  cases ht : f.type with
  | single leaf => cases f.default <;> rfl
  | repeated leaf =>
    dsimp only
    split <;> rfl
  | map key leaf => rfl

theorem lookup_packed_shapeJson {g : Graph} {n : Node} {f : Schema.Field} :
    (((shapeJson g n f).lookup "packed").getD (.bool false)).toValue = .bool (packs g n f) := by
  unfold shapeJson packs
  cases ht : f.type with
  | single leaf => cases f.default <;> rfl
  | repeated leaf =>
    dsimp only
    cases isPackable g leaf <;> rfl
  | map key leaf => rfl

theorem lookup_shapeJson_of_notMem {g : Graph} {n : Node} {f : Schema.Field} {key : String}
    (h : key ∉ ["default", "rule", "keyType", "packed"]) : (shapeJson g n f).lookup key = none := by
  refine Entries.lookup_of_notMem fun hm => h ?_
  unfold shapeJson at hm
  cases ht : f.type with
  | single leaf =>
    simp only [ht] at hm
    split at hm <;> simp_all
  | repeated leaf =>
    simp only [ht] at hm
    split at hm <;> simp_all [or_comm]
  | map key leaf => simp_all

/-- The default that a document gives comes back, and so does the type's own. -/
theorem readDefault_shapeJson {g : Graph} {f : Schema.Field} (hfit : f.DefaultFits) (hsound : f.Sound) :
    readDefault (.string (leafName g f.type.leaf)) ((documented? f).map defaultJson) =
      .ok ((documented? f).getD (ownDefault f.type.leaf)) := by
  cases hd : documented? f with
  | none => exact readDefault_none g hsound.leaf
  | some v =>
    have hleaf : ∃ leaf, f.type = .single leaf ∧ f.default = v ∧ v ≠ .null := by
      unfold documented? at hd
      split at hd
      · cases hd
      next leaf ht hv =>
        cases hd
        exact ⟨leaf, ht, rfl, hv⟩
      · cases hd
    obtain ⟨leaf, ht, rfl, hv⟩ := hleaf
    have hl := hsound.leaf
    rw [ht] at hl ⊢
    exact givenDefault_defaultJson hfit hl ht hv

theorem readField_fieldJson {g : Graph} {parent : String} {n : Node} {f : Schema.Field}
    (hfit : f.DefaultFits) (hsound : f.Sound) :
    readField parent n.name (fieldJson g n f) = .ok (rawField g parent n f none) := by
  have hlook {key : String} (h : key ≠ "extend") :
      (shapeJson g n f ++ extendJson g f).lookup key = (shapeJson g n f).lookup key := by
    rw [List.lookup_append, lookup_extendJson_of_ne g f h, Option.or_none]
  have hext : (shapeJson g n f ++ extendJson g f).lookup "extend" = (extendJson g f).lookup "extend" := by
    rw [List.lookup_append, lookup_shapeJson_of_notMem (by decide), Option.none_or]
  have hdefault := hlook (by decide : "default" ≠ "extend")
  rw [lookup_default_shapeJson] at hdefault
  rw [fieldJson_eq, readField_object (by rw [hdefault]; exact readDefault_shapeJson hfit hsound), hdefault,
    hlook (by decide : "rule" ≠ "extend"), lookup_rule_shapeJson,
    hlook (by decide : "keyType" ≠ "extend"), lookup_keyType_shapeJson,
    hlook (by decide : "packed" ≠ "extend"), lookup_packed_shapeJson, hext, lookup_extendJson]
  simp only [Option.isSome_map]
  rfl

/-! ## Groups -/

/-- A field in the group that a list of members gives it. -/
def inGroup (members : List (String × String)) (f : Field) : Field :=
  match members.lookup f.name with
  | some group => { f with oneof := some group }
  | none => f

/-- Putting members into their groups one after the other. -/
def joinAll (members : List (String × String)) (fields : List Field) : Reading (List Field) :=
  members.foldlM (fun fs m => joinGroup m.2 (.string m.1) fs) fields

theorem joinAll_ok : ∀ {members : List (String × String)} {fields : List Field},
    (members.map (·.1)).Nodup → (∀ m ∈ members, m.1 ∈ fields.map (·.name)) →
    joinAll members fields = .ok (fields.map (inGroup members))
  | [], fields, _, _ => by
    have hid : fields.map (inGroup []) = fields := List.map_id'' (fun _ => rfl) fields
    rw [hid]
    rfl
  | (name, group) :: rest, fields, hn, hm => by
    rw [List.map_cons, List.nodup_cons] at hn
    have hany : fields.any (·.name == name) = true := by
      obtain ⟨f, hf, he⟩ := List.mem_map.mp (hm (name, group) (by simp))
      exact List.any_eq_true.mpr ⟨f, hf, by simpa using he⟩
    have hstep : joinGroup group (.string name) fields =
        .ok (fields.map fun f => if f.name == name then { f with oneof := some group } else f) := by
      simp only [joinGroup, hashable, hany, if_true]
      rfl
    have hnames : (fields.map fun f => if f.name == name then { f with oneof := some group } else f).map
        (·.name) = fields.map (·.name) := by
      rw [List.map_map]
      exact List.map_congr_left fun f _ => by simp only [Function.comp]; split <;> rfl
    simp only [joinAll, List.foldlM_cons, hstep]
    refine (joinAll_ok hn.2 fun m hmem => ?_).trans ?_
    · rw [hnames]
      exact hm m (by simp [hmem])
    · rw [List.map_map]
      congr 1
      refine List.map_congr_left fun f _ => ?_
      simp only [Function.comp]
      by_cases hf : f.name = name
      · simp [inGroup, hf, Entries.lookup_of_notMem hn.1]
      · simp [inGroup, List.lookup_cons, beq_false_of_ne hf]

/-- A group as the document gives it. -/
def groupJson (group : OneofGroup) : String × Json :=
  (group.name, .object [("oneof", .array (group.fields.map .string))])

theorem readOneofs_groupJson : ∀ {groups : List OneofGroup} {fields fields' : List Field},
    joinAll (groups.flatMap fun group => group.fields.map (·, group.name)) fields = .ok fields' →
    readOneofs (groups.map groupJson) fields =
      .ok (fields', groups.map fun group => (group.name, group.fields.map .text))
  | [], fields, fields', h => by
    cases h
    rfl
  | group :: rest, fields, fields', h => by
    rw [List.flatMap_cons, joinAll, List.foldlM_append] at h
    obtain ⟨fields₁, h₁, h⟩ := bind_ok_iff.mp h
    rw [List.foldlM_map] at h₁
    have hmembers : (group.fields.map Json.string).foldlM (fun fs m => joinGroup group.name m fs) fields =
        .ok fields₁ := by
      rw [List.foldlM_map]
      exact h₁
    have hvalues : (group.fields.map Json.string).map Json.toValue = group.fields.map .text := by
      rw [List.map_map]
      exact List.map_congr_left fun _ _ => rfl
    simp only [List.map_cons, groupJson, readOneofs]
    refine bind_ok_iff.mpr ⟨.array (group.fields.map .string), rfl, ?_⟩
    refine bind_ok_iff.mpr ⟨group.fields.map .string, rfl, ?_⟩
    refine bind_ok_iff.mpr ⟨fields₁, hmembers, ?_⟩
    refine bind_ok_iff.mpr ⟨_, readOneofs_groupJson h, ?_⟩
    rw [hvalues]
    rfl

/-! ## Messages -/

/-- The groups of a message that have members. -/
def liveGroups (groups : List OneofGroup) : List OneofGroup := groups.filter (!·.fields.isEmpty)

theorem flatMap_liveGroups {γ : Type} (h : OneofGroup → String → γ) : ∀ groups : List OneofGroup,
    (liveGroups groups).flatMap (fun group => group.fields.map (h group)) =
      groups.flatMap fun group => group.fields.map (h group)
  | [] => rfl
  | group :: rest => by
    have ih := flatMap_liveGroups h rest
    rw [liveGroups] at ih ⊢
    cases hf : group.fields with
    | nil => simp [hf, ih]
    | cons a as => simp [hf, ih]

theorem oneofsJson_eq {groups : List OneofGroup} (h : (groups.map (·.name)).Nodup) :
    oneofsJson groups = .object ((liveGroups groups).map groupJson) := by
  unfold oneofsJson
  congr 1
  refine Entries.ofList_of_nodup ?_
  rw [List.map_map]
  exact h.sublist (List.filter_sublist.map _)

section Fields

variable {g : Graph} {n : Node}

theorem mem_fieldsOf {c : Node} {f : Schema.Field} :
    (c, f) ∈ fieldsOf g n ↔ c ∈ g.childrenOf n ∧ c.body = .field f := by
  simp only [fieldsOf, List.mem_filterMap, Option.map_eq_some_iff, Prod.mk.injEq,
    Node.field?_eq_some_iff]
  constructor
  · rintro ⟨c', hc', f', hf', rfl, rfl⟩
    exact ⟨hc', hf'⟩
  · rintro ⟨hc, hf⟩
    exact ⟨c, hc, f, hf, rfl, rfl⟩

theorem fieldsJson_eq : fieldsJson g n = (fieldsOf g n).map fun x => (x.1.name, fieldJson g x.1 x.2) := by
  simp only [fieldsJson, fieldsOf, List.map_filterMap, Option.map_map]
  rfl

theorem fieldNames_nodup (h : g.Arena) (hn : n ∈ g.nodes) : ((fieldsOf g n).map (·.1.name)).Nodup := by
  have hfilter : (fieldsOf g n).map (·.1) = (g.childrenOf n).filter (·.field?.isSome) := by
    rw [fieldsOf, List.map_filterMap, ← List.filterMap_eq_filter]
    refine List.filterMap_congr fun c _ => ?_
    cases hc : c.field? <;> simp [Option.guard, hc]
  have hsub : ((fieldsOf g n).map (·.1)).Sublist (g.childrenOf n) := hfilter ▸ List.filter_sublist
  have := (h.childNames_nodup hn).sublist (hsub.map (·.name))
  rwa [List.map_map] at this

theorem fieldsUnder_eq (h : g.Arena) (hn : n ∈ g.nodes) :
    g.fieldsUnder n.index = (fieldsOf g n).map fun x => (x.1.name, x.2) := by
  rw [h.fieldsUnder hn, fieldsOf, List.map_filterMap]
  refine List.filterMap_congr fun c _ => ?_
  cases c.field? <;> rfl

/-- The fields of a message as they are read. -/
def rawFields (g : Graph) (n : Node) : List Field :=
  (fieldsOf g n).map fun x => rawField g n.fullName x.1 x.2 x.2.oneof

/-- Every field is put into the group that it belongs to. -/
theorem joinAll_rawFields (h : g.Formed) (hn : n ∈ g.nodes) (hk : n.kind = .message) :
    joinAll (n.oneofs.flatMap fun group => group.fields.map (·, group.name))
      ((fieldsOf g n).map fun x => rawField g n.fullName x.1 x.2 none) = .ok (rawFields g n) := by
  have hnames := fieldNames_nodup h.toArena hn
  have hmembers : n.oneofs.flatMap (fun group => group.fields.map (·, group.name)) =
      (fieldsOf g n).filterMap fun x => x.2.oneof.map (x.1.name, ·) := by
    rw [(h.tidy _ n (h.node?_of_mem hn) hk).members, fieldsUnder_eq h.toArena hn, List.filterMap_map]
    rfl
  have hkeys : (((fieldsOf g n).filterMap fun x => x.2.oneof.map (x.1.name, ·)).map (·.1)).Sublist
      ((fieldsOf g n).map (·.1.name)) := Entries.keys_filterMap_sublist _ _ _
  rw [hmembers, joinAll_ok (hnames.sublist hkeys)]
  · rw [List.map_map]
    congr 1
    refine List.map_congr_left fun x hx => ?_
    have hlook := Entries.lookup_filterMap _ (fun y : Node × Schema.Field => y.2.oneof) hnames x hx
    simp only [Function.comp, inGroup, rawField, hlook]
    cases x.2.oneof <;> rfl
  · intro m hm
    obtain ⟨x, hx, hxm⟩ := List.mem_filterMap.mp hm
    obtain ⟨group, -, rfl⟩ := Option.map_eq_some_iff.mp hxm
    rw [List.map_map]
    exact List.mem_map.mpr ⟨x, hx, rfl⟩

end Fields

/-! ## Methods -/

theorem mem_methodsOf {g : Graph} {n c : Node} {m : Schema.Method} :
    (c, m) ∈ methodsOf g n ↔ c ∈ g.childrenOf n ∧ c.body = .method m := by
  have hmethod (c : Node) : c.method? = some m ↔ c.body = .method m := by
    unfold Node.method?
    split
    next h => simp [h]
    next h => exact ⟨nofun, fun hm => absurd hm (h m)⟩
  simp only [methodsOf, List.mem_filterMap, Option.map_eq_some_iff, Prod.mk.injEq]
  constructor
  · rintro ⟨c', hc', m', hm', rfl, rfl⟩
    exact ⟨hc', (hmethod _).mp hm'⟩
  · rintro ⟨hc, hm⟩
    exact ⟨c, hc, m, (hmethod c).mpr hm, rfl, rfl⟩

/-- A method as it is read. -/
def rawMethod (g : Graph) (parent : String) (n : Node) (m : Schema.Method) : Method where
  name := n.name
  fullName := innerName parent n.name
  requestType := .string (referenceName g m.request)
  responseType := .string (referenceName g m.response)
  requestStream := .bool m.requestStream
  responseStream := .bool m.responseStream
  resolvedRequest := none
  resolvedResponse := none

theorem readMethod_methodJson (g : Graph) (parent : String) (n : Node) (m : Schema.Method) :
    readMethod parent n.name (methodJson g m) = .ok (rawMethod g parent n m) := by
  obtain ⟨request, response, requestStream, responseStream⟩ := m
  cases requestStream <;> cases responseStream <;> rfl

theorem methodsJson_eq (g : Graph) (n : Node) :
    methodsJson g n = (methodsOf g n).map fun x => (x.1.name, methodJson g x.2) := by
  simp only [methodsJson, methodsOf, List.map_filterMap, Option.map_map]
  rfl

/-! ## Whole nodes -/

/-- The children of a node that are documented inside it. -/
def innerNodes (g : Graph) (n : Node) : List Node :=
  if n.kind = .package ∨ n.kind = .message then nestedNodes g n else []

/-- The document of a node around those of its inner nodes. -/
def bodyJson (g : Graph) (n : Node) (nested : List (String × Json)) : Json :=
  match n.body with
  | .package => .object [("nested", .object nested)]
  | .message _ groups =>
    .object (("fields", .object (fieldsJson g n)) ::
      (if groups.isEmpty then [] else [("oneofs", oneofsJson groups)]) ++
      if nested.isEmpty then [] else [("nested", .object nested)])
  | .enum values => .object [("values", valuesJson values)]
  | .service => .object [("methods", .object (methodsJson g n))]
  | .field f => fieldJson g n f
  | .method _ => .null

/-- The documents of some nodes under their names. -/
def Documents (g : Graph) (fuel : Nat) (nodes : List Node) (entries : List (String × Json)) : Prop :=
  List.Forall₂ (fun c e => e.1 = c.name ∧ nodeJson g fuel c = .ok e.2) nodes entries

theorem mapM_nodeJson {g : Graph} {fuel : Nat} {nodes : List Node} {entries : List (String × Json)} :
    (nodes.mapM fun c => do return (c.name, ← nodeJson g fuel c)) = .ok entries ↔
      Documents g fuel nodes entries := by
  have hstep (c : Node) (e : String × Json) : (do return (c.name, ← nodeJson g fuel c)) = Except.ok e ↔
      e.1 = c.name ∧ nodeJson g fuel c = .ok e.2 := by
    rw [map_ok_iff]
    constructor
    · rintro ⟨j, hj, rfl⟩
      exact ⟨rfl, hj⟩
    · rintro ⟨hname, hj⟩
      exact ⟨e.2, hj, Prod.ext hname.symm rfl⟩
  rw [mapM_ok_iff]
  exact ⟨fun h => h.imp fun c e => (hstep c e).mp, fun h => h.imp fun c e => (hstep c e).mpr⟩

theorem nodeJson_eq_ok {g : Graph} {fuel : Nat} {n : Node} {j : Json} (hk : n.kind ≠ .method) :
    nodeJson g (fuel + 1) n = .ok j ↔ ∃ nested, Documents g fuel (innerNodes g n) nested ∧
      j = bodyJson g n nested := by
  have hleaf (h : innerNodes g n = []) (j' : Json) : Except.ok j' = Except.ok (ε := Misfit) j ↔
      ∃ nested, Documents g fuel (innerNodes g n) nested ∧ j = j' := by
    rw [h]
    constructor
    · intro he
      exact ⟨[], .nil, (Except.ok.inj he).symm⟩
    · rintro ⟨nested, -, rfl⟩
      rfl
  cases hb : n.body with
  | package =>
    have hinner : innerNodes g n = nestedNodes g n := if_pos (.inl (by rw [Node.kind, hb]; rfl))
    simp only [nodeJson, bodyJson, hb, hinner, ← mapM_nodeJson]
    rw [map_ok_iff]
    exact exists_congr fun _ => and_congr_right fun _ => eq_comm
  | message dialect groups =>
    have hinner : innerNodes g n = nestedNodes g n := if_pos (.inr (by rw [Node.kind, hb]; rfl))
    simp only [nodeJson, bodyJson, hb, hinner, ← mapM_nodeJson]
    rw [map_ok_iff]
    exact exists_congr fun _ => and_congr_right fun _ => eq_comm
  | enum values =>
    have hinner : innerNodes g n = [] := if_neg (by rw [Node.kind, hb]; simp [Schema.Body.kind])
    simp only [nodeJson, bodyJson, hb]
    exact hleaf hinner _
  | service =>
    have hinner : innerNodes g n = [] := if_neg (by rw [Node.kind, hb]; simp [Schema.Body.kind])
    simp only [nodeJson, bodyJson, hb]
    exact hleaf hinner _
  | field f =>
    have hinner : innerNodes g n = [] := if_neg (by rw [Node.kind, hb]; simp [Schema.Body.kind])
    simp only [nodeJson, bodyJson, hb]
    exact hleaf hinner _
  | method m => exact absurd (by rw [Node.kind, hb]; rfl) hk

/-- The values of an enum as they are read: of one name the last number stays. -/
def rawValues (values : List EnumValue) : List (Value × Value) :=
  (Entries.ofList (· == ·) (values.map fun v => (v.name, Json.int v.number))).map fun x =>
    (.text x.1, x.2.toValue)

/-- What reading the document of a node under a parent gives. -/
def rawBody (g : Graph) (parent : String) (n : Node) : ObjectBody :=
  match n.body with
  | .package | .method _ => .package
  | .message _ groups =>
    .message (rawFields g n) ((liveGroups groups).map fun group => (group.name, group.fields.map .text))
  | .enum values => .enum (rawValues values)
  | .service => .service ((methodsOf g n).map fun x => rawMethod g n.fullName x.1 x.2)
  | .field f => .extension (rawField g parent n f none)

theorem readEnum_valuesJson (values : List EnumValue) :
    readEnum (.object [("values", valuesJson values)]) = .ok (.enum (rawValues values)) := by
  have hint : ∀ x ∈ Entries.ofList (· == ·) (values.map fun v => (v.name, Json.int v.number)),
      hashable x.2 = .ok () := by
    rintro ⟨k, j⟩ hx
    obtain ⟨v, -, hv⟩ := List.mem_map.mp (Entries.mem_ofList hx)
    cases hv
    rfl
  unfold readEnum
  refine bind_ok_iff.mpr ⟨valuesJson values, rfl, ?_⟩
  refine bind_ok_iff.mpr ⟨_, rfl, ?_⟩
  refine bind_ok_iff.mpr ⟨(), forIn_ok fun x hx => ?_, ?_⟩
  · obtain ⟨y, hy, rfl⟩ := List.mem_map.mp hx
    exact bind_ok_iff.mpr ⟨(), hint y hy, rfl⟩
  · rw [List.map_map]
    rfl

section Read

variable {g : Graph} {n : Node}

theorem Final.fits (h : g.Final) {f : Schema.Field} (hn : n ∈ g.nodes) (hb : n.body = .field f) :
    f.DefaultFits ∧ f.Sound := by
  have hsound := h.sound n hn
  rw [hb] at hsound
  exact ⟨Graph.defaultOf_fits (h.default hn hb), hsound⟩

theorem entriesAt_nested {nested : List (String × Json)} (hk : n.kind = .package ∨ n.kind = .message) :
    entriesAt (bodyJson g n nested) "nested" = .ok nested := by
  cases hb : n.body with
  | package => simp only [bodyJson, hb]; rfl
  | message dialect groups =>
    simp only [bodyJson, hb]
    cases groups <;> cases nested <;> rfl
  | _ => simp [Node.kind, hb, Schema.Body.kind] at hk

theorem entriesAt_oneofs {dialect : String} {groups : List OneofGroup} {nested : List (String × Json)}
    (hb : n.body = .message dialect groups) (hnodup : (groups.map (·.name)).Nodup) :
    entriesAt (bodyJson g n nested) "oneofs" = .ok ((liveGroups groups).map groupJson) := by
  simp only [bodyJson, hb, oneofsJson_eq hnodup]
  cases groups <;> cases nested <;> rfl

theorem readMessage_bodyJson (h : g.Final) (hn : n ∈ g.nodes) {dialect : String}
    {groups : List OneofGroup} (hb : n.body = .message dialect groups)
    (hnodup : (groups.map (·.name)).Nodup) {nested : List (String × Json)} :
    readMessage n.fullName (bodyJson g n nested) = .ok (rawBody g "" n) := by
  have hfields : entriesAt (bodyJson g n nested) "fields" = .ok (fieldsJson g n) := by
    simp only [bodyJson, hb]
    rfl
  have hread : (fieldsJson g n).mapM (fun x => readField n.fullName x.1 x.2) =
      .ok ((fieldsOf g n).map fun x => rawField g n.fullName x.1 x.2 none) := by
    rw [mapM_ok_iff, fieldsJson_eq, List.forall₂_map_left_iff, List.forall₂_map_right_iff,
      List.forall₂_same]
    rintro ⟨c, f⟩ hx
    obtain ⟨hc, hf⟩ := mem_fieldsOf.mp hx
    obtain ⟨hfit, hsound⟩ := Final.fits h ((h.mem_childrenOf hn).mp hc).1 hf
    exact readField_fieldJson hfit hsound
  have hjoin := joinAll_rawFields h.toFormed hn (by rw [Node.kind, hb]; rfl)
  have honeofs : n.oneofs = groups := by simp [Node.oneofs, hb]
  rw [honeofs, ← flatMap_liveGroups fun group x => (x, group.name)] at hjoin
  unfold readMessage
  refine bind_ok_iff.mpr ⟨_, hfields, bind_ok_iff.mpr ⟨_, hread, ?_⟩⟩
  refine bind_ok_iff.mpr ⟨(), forIn_ok fun f hf => ?_, ?_⟩
  · obtain ⟨x, -, rfl⟩ := List.mem_map.mp hf
    rfl
  · refine bind_ok_iff.mpr ⟨_, entriesAt_oneofs hb hnodup, ?_⟩
    refine bind_ok_iff.mpr ⟨_, readOneofs_groupJson hjoin, ?_⟩
    simp only [rawBody, hb]
    rfl

/-- **Every node is read as what it is.** -/
theorem readBody_bodyJson (h : g.Final) (hn : n ∈ g.nodes) {parent : String}
    (hext : ∀ f, n.body = .field f → f.extendee ≠ none) (hk : n.kind ≠ .method)
    (hnodup : (n.oneofs.map (·.name)).Nodup) {nested : List (String × Json)} :
    readBody parent n.fullName n.name (bodyJson g n nested) = .ok (rawBody g parent n) := by
  cases hb : n.body with
  | package => simp only [bodyJson, rawBody, hb]; rfl
  | message dialect groups =>
    have honeofs : n.oneofs = groups := by simp [Node.oneofs, hb]
    have hread := @readMessage_bodyJson g n h hn dialect groups hb (honeofs ▸ hnodup) nested
    have hmention : mentions (bodyJson g n nested) "fields" = .ok true := by
      simp only [bodyJson, hb]
      rfl
    simp only [rawBody, hb] at hread ⊢
    unfold readBody
    exact bind_ok_iff.mpr ⟨true, hmention, hread⟩
  | enum values =>
    simp only [bodyJson, rawBody, hb]
    exact readEnum_valuesJson values
  | service =>
    have hread : (methodsJson g n).mapM (fun x => readMethod n.fullName x.1 x.2) =
        .ok ((methodsOf g n).map fun x => rawMethod g n.fullName x.1 x.2) := by
      rw [mapM_ok_iff, methodsJson_eq, List.forall₂_map_left_iff, List.forall₂_map_right_iff,
        List.forall₂_same]
      exact fun x _ => readMethod_methodJson g n.fullName x.1 x.2
    simp only [bodyJson, rawBody, hb]
    exact map_ok_iff.mpr ⟨_, hread, rfl⟩
  | field f =>
    obtain ⟨hfit, hsound⟩ := Final.fits h hn hb
    have hmention (key : String) : mentions (fieldJson g n f) key =
        .ok ((("type", Json.string (leafName g f.type.leaf)) :: ("id", .int f.tag) ::
          (shapeJson g n f ++ extendJson g f)).lookup key).isSome := by
      rw [fieldJson_eq]
      rfl
    have hkey {key : String} (hkey : key ∉ ["type", "id", "default", "rule", "keyType", "packed", "extend"]) :
        mentions (fieldJson g n f) key = .ok false := by
      simp only [List.mem_cons, not_or] at hkey
      rw [hmention, List.lookup_cons, beq_false_of_ne hkey.1, List.lookup_cons, beq_false_of_ne hkey.2.1,
        List.lookup_append, lookup_extendJson_of_ne g f hkey.2.2.2.2.2.2.1,
        lookup_shapeJson_of_notMem (by simp only [List.mem_cons, not_or]; exact
          ⟨hkey.2.2.1, hkey.2.2.2.1, hkey.2.2.2.2.1, hkey.2.2.2.2.2.1, by simp⟩)]
      rfl
    have hextend : mentions (fieldJson g n f) "extend" = .ok true := by
      rw [hmention, List.lookup_cons, beq_false_of_ne (by decide), List.lookup_cons,
        beq_false_of_ne (by decide), List.lookup_append, lookup_shapeJson_of_notMem (by decide)]
      cases he : f.extendee with
      | none => exact absurd he (hext f hb)
      | some e => simp [extendJson, he]
    simp only [bodyJson, rawBody, hb]
    unfold readBody
    refine bind_ok_iff.mpr ⟨false, hkey (by decide), bind_ok_iff.mpr ⟨false, hkey (by decide), ?_⟩⟩
    refine bind_ok_iff.mpr ⟨false, hkey (by decide), bind_ok_iff.mpr ⟨true, hextend, ?_⟩⟩
    exact map_ok_iff.mpr ⟨_, readField_fieldJson hfit hsound, rfl⟩
  | method m => exact absurd (by rw [Node.kind, hb]; rfl) hk

end Read

end Reflection
end ProtoBind
