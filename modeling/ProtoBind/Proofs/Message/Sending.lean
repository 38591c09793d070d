/-
What a field writes.

The writer goes by the field of the reflection tree, the reader by the codec
of the class; `Agrees` says that the two describe one field. `Sent` lists the
records that a value may be written as. A well-typed value is always written
as one of these (`writeField_sent`), and every record of it is a value of its
wire type (`Sent.framed`).
-/
import ProtoBind.Proofs.Message.Elements

namespace ProtoBind

/-- Kinds that may be keys of maps. -/
def Scalar.IsMapKey (k : Scalar) : Prop := k.isInteger = true ∨ k = .bool ∨ k = .string

namespace Message

/-- A described field has the arity. -/
def HasArity (f : Reflection.Field) : Schema.Arity → Prop
  | .single => f.isMap = false ∧ f.repeated = false
  | .repeated => f.isMap = false ∧ f.repeated = true
  | .map key => f.keyType = .text key.name ∧ key.IsMapKey

/-- A described field has the shape of the arity, whatever the kind of its keys. -/
def Shaped (f : Reflection.Field) : Schema.Arity → Prop
  | .single => f.isMap = false ∧ f.repeated = false
  | .repeated => f.isMap = false ∧ f.repeated = true
  | .map key => f.keyType = .text key.name

/-- The field of the reflection tree and the codec have the same contents. -/
structure Matches (lib : Library) (f : Reflection.Field) (p : FieldCodec) : Prop where
  target : p.target = f.attr
  id : f.id = .int p.number
  element : lib.elementOf? f = some p.element
  read : p.read = some p.element
  made : p.made = some p.element
  shape : Shaped f p.arity
  grouped : f.oneof ≠ none → p.arity = .single
  unset : ∀ type, p.element = .message type → p.arity = .single → f.newDefault = .null

/-- The field of the reflection tree and the codec describe one field. -/
structure Agrees (lib : Library) (f : Reflection.Field) (p : FieldCodec) : Prop where
  target : p.target = f.attr
  id : f.id = .int p.number
  low : 1 ≤ p.number
  high : p.number < 2 ^ 29
  element : lib.elementOf? f = some p.element
  read : p.read = some p.element
  made : p.made = some p.element
  arity : HasArity f p.arity
  grouped : f.oneof ≠ none → p.arity = .single
  unset : ∀ type, p.element = .message type → p.arity = .single → f.newDefault = .null

/-- The payload carries an entry of a map. -/
structure CarriesEntry (lib : Library) (key : Scalar) (e : Element) (x : Value × Value)
    (payload : List UInt8) (v' : Value) : Prop where
  short : payload.length < 2 ^ 32
  parts : ∃ ks vs, payload = Wire.key 1 key.wireType.number ++ ks ++ (Wire.key 2 e.wireType.number ++ vs) ∧
    Takes (Reader.scalar key) ks x.1 ∧ Carries lib e x.2 vs v'
  flat : x.1.Flat
  self : x.1.sameKey x.1 = true

/-- The value of a field is written as the records, each a wire type and a payload. -/
inductive Sent (lib : Library) (f : Reflection.Field) (p : FieldCodec) :
    Value → List (Nat × List UInt8) → Prop
  | nothing {v : Value} (equals : lib.Equals f.newDefault v) : Sent lib f p v []
  | one {v v' : Value} {payload : List UInt8} (arity : p.arity = .single)
      (carries : Carries lib p.element v payload v') :
      Sent lib f p v [(p.element.wireType.number, payload)]
  | each {items : List Value} {payloads : List (List UInt8)} (arity : p.arity = .repeated)
      (carries : List.Forall₂ (fun v bs => ∃ v', Carries lib p.element v bs v') items payloads) :
      Sent lib f p (.list items) (payloads.map (p.element.wireType.number, ·))
  | packed {items : List Value} {payloads : List (List UInt8)} (arity : p.arity = .repeated)
      (packable : p.element.isPackable = true) (short : payloads.flatten.length < 2 ^ 32)
      (carries : List.Forall₂ (fun v bs => ∃ v', Carries lib p.element v bs v') items payloads) :
      Sent lib f p (.list items) [(2, Wire.bytes payloads.flatten)]
  | entries {key : Scalar} {entries : List (Value × Value)} {payloads : List (List UInt8)}
      (arity : p.arity = .map key) (distinct : entries.Pairwise fun x y => x.1.sameKey y.1 = false)
      (carries : List.Forall₂ (fun x bs => ∃ v', CarriesEntry lib key p.element x bs v') entries payloads) :
      Sent lib f p (.dict entries) (payloads.map fun bs => (2, Wire.bytes bs))

/-- The bytes of records with one number. -/
def recordBytes (number : Int) (records : List (Nat × List UInt8)) : List UInt8 :=
  records.flatMap fun x => Wire.key number x.1 ++ x.2

variable {lib writer : Library} {body : Instance → Except Fault (List UInt8)} {nested : Instance → Prop}
  {f : Reflection.Field} {p : FieldCodec}

theorem Element.wireType_lt (e : Element) : e.wireType.number < 8 := by
  cases e.wireType <;> decide

/-- Every record is a value of its wire type. -/
theorem Sent.framed {v : Value} {records : List (Nat × List UInt8)} (h : Sent lib f p v records) :
    ∀ x ∈ records, x.1 < 8 ∧ WireValue x.1 x.2 := by
  cases h with
  | nothing => nofun
  | one _ carries =>
    intro x hx
    obtain rfl := List.mem_singleton.mp hx
    exact ⟨p.element.wireType_lt, carries.framed⟩
  | each _ carries =>
    intro x hx
    obtain ⟨bs, hbs, rfl⟩ := List.mem_map.mp hx
    obtain ⟨v, -, v', hv⟩ := forall₂_mem carries.flip hbs
    exact ⟨p.element.wireType_lt, hv.framed⟩
  | packed _ _ short _ =>
    intro x hx
    obtain rfl := List.mem_singleton.mp hx
    exact ⟨(by decide : 2 < 8), Wire.bytes_value short⟩
  | entries _ _ carries =>
    intro x hx
    obtain ⟨bs, hbs, rfl⟩ := List.mem_map.mp hx
    obtain ⟨v, -, v', hv⟩ := forall₂_mem carries.flip hbs
    exact ⟨(by decide : 2 < 8), Wire.bytes_value hv.short⟩

/-! ## Writing -/

theorem ElementHolds.ne_null {e : Element} {v : Value} (h : ElementHolds nested e v) : v ≠ .null := by
  rintro rfl
  cases e with
  | scalar k => cases h
  | enum type => obtain ⟨n, h | ⟨owner, name, h⟩, -⟩ := h <;> cases h
  | message type => obtain ⟨m, h, -⟩ := h; cases h

theorem ElementHolds.flat {e : Element} {v : Value} (h : ElementHolds nested e v)
    (he : ∀ type, e ≠ .message type) : v.Flat := by
  cases e with
  | scalar k => exact Scalar.Holds.flat h
  | enum type => exact (EnumHolds.typed h).flat
  | message type => exact absurd rfl (he type)

/-- What each part writes and what is known of it. -/
theorem writeAll_exists {α β : Type} (write : α → Except Fault (List UInt8)) (frame : β → List UInt8)
    (R : α → β → Prop) {parts : List α} (h : ∀ x ∈ parts, ∃ b, write x = .ok (frame b) ∧ R x b) :
    ∃ bs, writeAll write parts = .ok (bs.flatMap frame) ∧ List.Forall₂ R parts bs := by
  obtain ⟨bs, hbs⟩ := forall₂_exists h
  refine ⟨bs, map_ok_iff.mpr ⟨bs.map frame, ?_, List.flatMap_def.symm⟩, hbs.imp fun _ _ hx => hx.2⟩
  rw [mapM_ok_iff, List.forall₂_map_right_iff]
  exact hbs.imp fun _ _ hx => hx.1

section Shapes

-- What a field writes, by the shape it has.

variable {number : Int} {v : Value} (m : Instance)

theorem writeField_value (hid : f.id = .int number) (hone : f.oneof = none) (hmap : f.isMap = false)
    (hrep : f.repeated = false) (hv : v ≠ .null) : writer.writeField body m f v =
      if !writer.isMessageField f && writer.equal v f.default then .ok [] else writer.writeValue body f number v := by
  have hnumber : f.id.integer?.getD 0 = number := by rw [hid]; rfl
  simp only [Library.writeField, hone, hmap, hrep, hnumber]
  cases v <;> first | exact absurd rfl hv | rfl

theorem writeField_unset (hone : f.oneof = none) (hmap : f.isMap = false) (hrep : f.repeated = false) :
    writer.writeField body m f .null = .ok [] := by
  simp only [Library.writeField, hone, hmap, hrep]
  rfl

variable {m} in
theorem writeField_active (hid : f.id = .int number) (hone : f.oneof ≠ none)
    (hactive : MessageClass.isActive m f = true) : writer.writeField body m f v = writer.writeValue body f number v := by
  have hsome : f.oneof.isSome = true := Option.isSome_iff_ne_none.mpr hone
  simp only [Library.writeField, hsome, hactive, if_true, hid, Value.integer?, Option.getD_some]

variable {m} in
theorem writeField_inactive (hone : f.oneof ≠ none) (hactive : MessageClass.isActive m f = false) :
    writer.writeField body m f v = .ok [] := by
  have hsome : f.oneof.isSome = true := Option.isSome_iff_ne_none.mpr hone
  simp only [Library.writeField, hsome, hactive, if_true]
  rfl

theorem writeField_empty (hone : f.oneof = none) (hmap : f.isMap = false) (hrep : f.repeated = true) :
    writer.writeField body m f (.list []) = .ok [] := by
  simp only [Library.writeField, hone, hmap, hrep]
  rfl

theorem writeField_run (hid : f.id = .int number) (hone : f.oneof = none) (hmap : f.isMap = false)
    (hrep : f.repeated = true) {first : Value} {rest : List Value} {k : Scalar} (hk : writer.packedKind? f = some k) :
    writer.writeField body m f (.list (first :: rest)) =
      (do return Wire.key number 2 ++ Wire.bytes (← writeAll (writeScalar k) (first :: rest))) := by
  have hnumber : f.id.integer?.getD 0 = number := by rw [hid]; rfl
  simp only [Library.writeField, hone, hmap, hrep, hnumber, hk]
  rfl

theorem writeField_items (hid : f.id = .int number) (hone : f.oneof = none) (hmap : f.isMap = false)
    (hrep : f.repeated = true) {first : Value} {rest : List Value} (hk : writer.packedKind? f = none) :
    writer.writeField body m f (.list (first :: rest)) =
      writeAll (writer.writeValue body f number) (first :: rest) := by
  have hnumber : f.id.integer?.getD 0 = number := by rw [hid]; rfl
  simp only [Library.writeField, hone, hmap, hrep, hnumber, hk]
  rfl

theorem writeField_entries (hid : f.id = .int number) (hone : f.oneof = none) (hmap : f.isMap = true)
    (entries : List (Value × Value)) : writer.writeField body m f (.dict entries) =
      writeAll (fun x => do
        return Wire.key number 2 ++
          Wire.bytes ((← Library.writeMapKey f x.1) ++ (← writer.writeValue body f 2 x.2))) entries := by
  have hnumber : f.id.integer?.getD 0 = number := by rw [hid]; rfl
  simp only [Library.writeField, hone, hmap, hnumber]
  rfl

end Shapes

/-- The kind of a shared run is that of its elements. -/
theorem packedKind?_element {k : Scalar} {e : Element} (he : writer.elementOf? f = some e)
    (hk : writer.packedKind? f = some k) : e.packedKind? = some k := by
  simpa [Library.packedKind?, he] using (Option.ite_none_right_eq_some.mp hk).2

theorem Element.isPackable_of_kind {k : Scalar} {e : Element} (h : e.packedKind? = some k) : e.isPackable = true := by
  cases e with
  | scalar k => exact (Option.ite_none_right_eq_some.mp h).1
  | enum type => rfl
  | message type => cases h

/-- A value of a single field is written behind its key, unless it is the default. -/
theorem writeField_single (hn : Returns lib body nested) (ha : Agrees writer f p) (hone : f.oneof = none)
    (hmap : f.isMap = false) (hrep : f.repeated = false) (harity : p.arity = .single) {v : Value}
    (hv : ElementHolds nested p.element v) (m : Instance) :
    ∃ records, writer.writeField body m f v = .ok (recordBytes p.number records) ∧ Sent lib f p v records := by
  obtain ⟨payload, v', hwrite, -, hc⟩ := writeElement_carries hn hv
  have hvalue : writer.writeValue body f p.number v =
      .ok (recordBytes p.number [(p.element.wireType.number, payload)]) := by
    simp only [Library.writeValue, ha.element, hwrite, recordBytes, List.flatMap_cons, List.flatMap_nil,
      List.append_nil]
  rw [writeField_value m ha.id hone hmap hrep hv.ne_null]
  split
  next hskip =>
    rw [Bool.and_eq_true, Bool.not_eq_true'] at hskip
    obtain ⟨hmsg, hequal⟩ := hskip
    have hflat : v.Flat := hv.flat fun type ht => by
      simp [Library.isMessageField, ha.element, ht] at hmsg
    refine ⟨[], rfl, .nothing (.flat hflat ?_)⟩
    rw [Library.equal, hflat.depth] at hequal
    simp only [Reflection.Field.newDefault, hmap, hrep]
    rw [Value.sameKey_comm]
    exact hequal
  next => exact ⟨_, hvalue, .one harity hc⟩

/-- The member of a group that is set is always written. -/
theorem writeField_member (hn : Returns lib body nested) (ha : Agrees writer f p) (hone : f.oneof ≠ none)
    {v : Value} (hv : ElementHolds nested p.element v) {m : Instance}
    (hactive : MessageClass.isActive m f = true) :
    ∃ payload v', writer.writeField body m f v =
      .ok (recordBytes p.number [(p.element.wireType.number, payload)]) ∧ Carries lib p.element v payload v' := by
  obtain ⟨payload, v', hwrite, -, hc⟩ := writeElement_carries hn hv
  refine ⟨payload, v', ?_, hc⟩
  rw [writeField_active ha.id hone hactive]
  simp only [Library.writeValue, ha.element, hwrite, recordBytes, List.flatMap_cons, List.flatMap_nil, List.append_nil]

theorem HasArity.isMap {key : Scalar} (h : f.keyType = .text key.name) : f.isMap = true := by
  rw [Reflection.Field.isMap, h]

theorem HasArity.shaped {a : Schema.Arity} (h : HasArity f a) : Shaped f a := by
  cases a with
  | map key => exact h.1
  | _ => exact h

theorem Agrees.matches (ha : Agrees writer f p) : Matches writer f p :=
  ⟨ha.target, ha.id, ha.element, ha.read, ha.made, ha.arity.shaped, ha.grouped, ha.unset⟩

theorem Shaped.eq_single {a : Schema.Arity} (h : Shaped f a) (hmap : f.isMap = false)
    (hrep : f.repeated = false) : a = .single := by
  cases a with
  | single => rfl
  | repeated => simp [h.2] at hrep
  | map key => simp [HasArity.isMap h] at hmap

theorem Shaped.eq_repeated {a : Schema.Arity} (h : Shaped f a) (hmap : f.isMap = false)
    (hrep : f.repeated = true) : a = .repeated := by
  cases a with
  | single => simp [h.2] at hrep
  | repeated => rfl
  | map key => simp [HasArity.isMap h] at hmap

theorem Shaped.eq_map {a : Schema.Arity} {key : Scalar} (h : Shaped f a) (hkey : f.keyType = .text key.name) :
    a = .map key := by
  have hmap := HasArity.isMap hkey
  cases a with
  | single => simp [h.1] at hmap
  | repeated => simp [h.1] at hmap
  | map key' =>
    have hname : key'.name = key.name := Value.text.inj (h.symm.trans hkey)
    have heq : some key' = some key := by
      rw [← Scalar.ofName?_name key', hname, Scalar.ofName?_name]
    cases heq
    rfl

/-- The values of a repeated field are written one by one or in one run. -/
theorem writeField_list (hn : Returns lib body nested) (ha : Agrees writer f p) (hone : f.oneof = none)
    (hmap : f.isMap = false) (hrep : f.repeated = true) {items : List Value}
    (hitems : ∀ v ∈ items, ElementHolds nested p.element v)
    (hshort : ∀ k bs, writer.packedKind? f = some k → writeAll (writeScalar k) items = .ok bs →
      bs.length < 2 ^ 32) (m : Instance) :
    ∃ records, writer.writeField body m f (.list items) = .ok (recordBytes p.number records) ∧
      Sent lib f p (.list items) records := by
  have harity := ha.matches.shape.eq_repeated hmap hrep
  cases items with
  | nil =>
    refine ⟨[], writeField_empty m hone hmap hrep, .nothing ?_⟩
    simp only [Reflection.Field.newDefault, hmap, hrep]
    exact .list .nil
  | cons first rest =>
    cases hk : writer.packedKind? f with
    | some k =>
      have hpacked := packedKind?_element ha.element hk
      obtain ⟨payloads, hwrite, hcarries⟩ := writeAll_exists (writeScalar k) id
        (fun v bs => ∃ v', Carries lib p.element v bs v') fun v hv => by
          obtain ⟨payload, v', -, hpack, hc⟩ := writeElement_carries hn (hitems v hv)
          exact ⟨payload, hpack k hpacked, v', hc⟩
      rw [List.flatMap_id] at hwrite
      refine ⟨[(2, Wire.bytes payloads.flatten)], ?_,
        .packed harity (Element.isPackable_of_kind hpacked) (hshort k _ hk hwrite) hcarries⟩
      rw [writeField_run m ha.id hone hmap hrep hk, hwrite]
      simp only [recordBytes, List.flatMap_cons, List.flatMap_nil, List.append_nil]
      rfl
    | none =>
      rw [writeField_items m ha.id hone hmap hrep hk]
      obtain ⟨payloads, hwrite, hcarries⟩ := writeAll_exists (writer.writeValue body f p.number)
        (fun bs => Wire.key p.number p.element.wireType.number ++ bs)
        (fun v bs => ∃ v', Carries lib p.element v bs v') fun v hv => by
          obtain ⟨payload, v', hwrite, -, hc⟩ := writeElement_carries hn (hitems v hv)
          exact ⟨payload, by simp only [Library.writeValue, ha.element, hwrite], v', hc⟩
      refine ⟨payloads.map (p.element.wireType.number, ·), ?_, .each harity hcarries⟩
      simp only [hwrite, recordBytes, List.flatMap_map]

theorem writeMapKey_ok {key : Scalar} (hkey : f.keyType = .text key.name) {v : Value} {bs : List UInt8}
    (hv : writeScalar key v = .ok bs) : Library.writeMapKey f v = .ok (Wire.key 1 key.wireType.number ++ bs) := by
  have hname : f.keyType.plainText = .ok key.name := by rw [hkey]; rfl
  simp only [Library.writeMapKey, hname, lift]
  refine bind_ok_iff.mpr ⟨key.name, rfl, ?_⟩
  simp only [Scalar.ofName?_name, writeElement, hv]
  rfl

/-- The entries of a map are written one by one, each as a message of its own. -/
theorem writeField_dict (hn : Returns lib body nested) (ha : Agrees writer f p) (hone : f.oneof = none)
    {key : Scalar} (hkey : f.keyType = .text key.name) {entries : List (Value × Value)}
    (hdistinct : entries.Pairwise fun x y => x.1.sameKey y.1 = false)
    (hentries : ∀ x ∈ entries, key.Holds x.1 ∧ ElementHolds nested p.element x.2)
    (hshort : ∀ x ∈ entries, ∀ ks vs, Library.writeMapKey f x.1 = .ok ks →
      writer.writeValue body f 2 x.2 = .ok vs → (ks ++ vs).length < 2 ^ 32) (m : Instance) :
    ∃ records, writer.writeField body m f (.dict entries) = .ok (recordBytes p.number records) ∧
      Sent lib f p (.dict entries) records := by
  have harity := ha.matches.shape.eq_map hkey
  have hmapKey : key.IsMapKey := by
    have h := ha.arity
    rw [harity] at h
    exact h.2
  obtain ⟨payloads, hwrite, hcarries⟩ := writeAll_exists
    (fun x : Value × Value => do
      return Wire.key p.number 2 ++ Wire.bytes ((← Library.writeMapKey f x.1) ++ (← writer.writeValue body f 2 x.2)))
    (fun bs => Wire.key p.number 2 ++ Wire.bytes bs)
    (fun x bs => ∃ v', CarriesEntry lib key p.element x bs v') fun x hx => by
      obtain ⟨hholds, helem⟩ := hentries x hx
      obtain ⟨ks, k', hks, htake, hself, hsame, hw⟩ := writeScalar_takes hholds
      obtain ⟨vs, v', hvs, -, hc⟩ := writeElement_carries hn helem
      have hwk := writeMapKey_ok hkey hks
      have hwv : writer.writeValue body f 2 x.2 = .ok (Wire.key 2 p.element.wireType.number ++ vs) := by
        simp only [Library.writeValue, ha.element, hvs]
      -- A map key is read back as it was, not only as an equal key.
      obtain rfl : k' = x.1 := hsame (by rintro rfl; simp [Scalar.IsMapKey, Scalar.isInteger] at hmapKey)
      refine ⟨_, ?_, v', hshort x hx _ _ hwk hwv, ⟨ks, vs, rfl, htake, hc⟩, Scalar.Holds.flat hholds, hself⟩
      simp only [hwk, hwv]
      rfl
  refine ⟨payloads.map fun bs => (2, Wire.bytes bs), ?_, .entries harity hdistinct hcarries⟩
  rw [writeField_entries m ha.id hone (HasArity.isMap hkey), recordBytes, List.flatMap_map]
  exact hwrite

/-- **A well-typed value of a field outside the groups is written as records that carry it.** -/
theorem writeField_sent (hn : Returns lib body nested) (ha : Agrees writer f p) (hone : f.oneof = none)
    {v : Value} (hv : FieldHolds writer body nested f v) (m : Instance) :
    ∃ records, writer.writeField body m f v = .ok (recordBytes p.number records) ∧ Sent lib f p v records := by
  cases hv with
  | single hmap hrep helem holds =>
    cases ha.element.symm.trans helem
    exact writeField_single hn ha hone hmap hrep (ha.matches.shape.eq_single hmap hrep) holds m
  | @unset type hmap hrep helem =>
    refine ⟨[], writeField_unset m hone hmap hrep, .nothing ?_⟩
    have htype : p.element = .message type := Option.some.inj (ha.element.symm.trans helem)
    rw [ha.unset type htype (ha.matches.shape.eq_single hmap hrep)]
    exact .flat trivial rfl
  | list hmap hrep helem holds short =>
    cases ha.element.symm.trans helem
    exact writeField_list hn ha hone hmap hrep holds short m
  | dict hkey helem distinct holds short =>
    cases ha.element.symm.trans helem
    exact writeField_dict hn ha hone hkey distinct holds short m

end Message
end ProtoBind
