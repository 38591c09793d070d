/-
Well-typed messages, and how their elements travel.

`Library.Holds` says that an instance can be written: every field holds a
value of its type, and no length that is written exceeds 32 bits. An element
of such an instance is written as a key and a payload of its wire type, and
the payload is read back as an equal value (`writeElement_carries`); of the
messages inside it this is assumed here and proved with the messages around
them.
-/
import ProtoBind.Proofs.Message.Equality
import ProtoBind.Proofs.Message.Records
import ProtoBind.Proofs.Wire.Scalars

namespace ProtoBind.Message

open Decode

/-! ## Well-typed messages -/

/-- A number, with or without a name. -/
def EnumTyped (v : Value) : Prop := ∃ n, v = .int n ∨ ∃ owner name, v = .member owner name n

/-- A number that an enum field holds, with or without its name. -/
def EnumHolds (v : Value) : Prop :=
  ∃ n, (v = .int n ∨ ∃ owner name, v = .member owner name n) ∧ Scalar.int32.InRange n

/-- A value of an element; `nested` says which messages are well-typed. -/
def ElementHolds (nested : Instance → Prop) : Element → Value → Prop
  | .scalar k, v => k.Holds v
  | .enum _, v => EnumHolds v
  | .message type, v => ∃ m : Instance, v = m.value ∧ m.type = type ∧ nested m

/-- A value of a field outside the groups. The lengths of shared runs and of map entries are those
that the field writes. -/
inductive FieldHolds (lib : Library) (body : Instance → Except Fault (List UInt8))
    (nested : Instance → Prop) (f : Reflection.Field) : Value → Prop
  | single {e : Element} {v : Value} (map : f.isMap = false) (rep : f.repeated = false)
      (elem : lib.elementOf? f = some e) (holds : ElementHolds nested e v) : FieldHolds lib body nested f v
  | unset {type : String} (map : f.isMap = false) (rep : f.repeated = false)
      (elem : lib.elementOf? f = some (.message type)) : FieldHolds lib body nested f .null
  | list {e : Element} {items : List Value} (map : f.isMap = false) (rep : f.repeated = true)
      (elem : lib.elementOf? f = some e) (holds : ∀ v ∈ items, ElementHolds nested e v)
      (short : ∀ k bs, lib.packedKind? f = some k → writeAll (writeScalar k) items = .ok bs →
        bs.length < 2 ^ 32) : FieldHolds lib body nested f (.list items)
  | dict {key : Scalar} {e : Element} {entries : List (Value × Value)} (map : f.keyType = .text key.name)
      (elem : lib.elementOf? f = some e) (distinct : entries.Pairwise fun x y => x.1.sameKey y.1 = false)
      (holds : ∀ x ∈ entries, key.Holds x.1 ∧ ElementHolds nested e x.2)
      (short : ∀ x ∈ entries, ∀ ks vs, Library.writeMapKey f x.1 = .ok ks →
        lib.writeValue body f 2 x.2 = .ok vs → (ks ++ vs).length < 2 ^ 32) :
      FieldHolds lib body nested f (.dict entries)

/-- An instance of a class: each field outside the groups holds a value of its type, and each group
that is set has a declared member with a value of its type. -/
structure InstanceHolds (lib : Library) (body : Instance → Except Fault (List UInt8))
    (nested : Instance → Prop) (c : MessageClass) (m : Instance) : Prop where
  regular : ∀ f ∈ c.fields, f.oneof = none → ∃ v, m.attrs.lookup f.attr = some v ∧
    FieldHolds lib body nested f v
  groups : (m.choices.map (·.1)).Nodup
  chosen : ∀ x ∈ m.choices, ∃ f ∈ c.fields, f.oneofAttr = some x.1 ∧ f.attr = x.2.1 ∧
    ∃ e, lib.elementOf? f = some e ∧ ElementHolds nested e x.2.2

namespace Library

/-- The instance is well-typed, down to a depth of nesting, and the length of every message inside
it can be written. -/
def HoldsUpTo (lib : Library) : Nat → Instance → Prop
  | 0, _ => False
  | fuel + 1, m => ∃ c, lib.message? m.type = some c ∧ InstanceHolds lib (lib.encodeUpTo fuel)
      (fun n => lib.HoldsUpTo fuel n ∧ ∀ bs, lib.encodeUpTo fuel n = .ok bs → bs.length < 2 ^ 32) c m

/-- The instance is well-typed. -/
def Holds (lib : Library) (m : Instance) : Prop := lib.HoldsUpTo m.value.depth m

end Library

/-! ## Elements -/

/-- How the values of an element are framed. -/
def Element.wireType : Element → WireType
  | scalar k => k.wireType
  | enum _ => .varint
  | message _ => .lengthDelimited

/-- A message that the element is of a type in `S`. -/
def Element.Within (S : String → Prop) : Element → Prop
  | message type => S type
  | _ => True

/-- The payload carries the value `v` of an element and is read as `v'`. -/
structure Carries (lib : Library) (e : Element) (v : Value) (payload : List UInt8) (v' : Value) : Prop where
  framed : WireValue e.wireType.number payload
  takes : ∀ fuel, payload.length ≤ fuel → Takes (lib.readElement (lib.decodeUpTo fuel) e) payload v'
  equals : lib.Equals v' v
  ne_null : v' ≠ .null
  missing : ∃ v₀, lib.missingValue e = .ok v₀

/-- The messages that `nested` admits are written by `body` and read back as equal ones. -/
def Returns (lib : Library) (body : Instance → Except Fault (List UInt8)) (nested : Instance → Prop) : Prop :=
  ∀ m, nested m → ∃ bs v', body m = .ok bs ∧ bs.length < 2 ^ 32 ∧ lib.ofBytes m.type bs = .ok v' ∧
    lib.Equals v' m.value

variable {lib : Library} {body : Instance → Except Fault (List UInt8)} {nested : Instance → Prop}

theorem ElementHolds.within {S : String → Prop} {e : Element} {v : Value} (h : ElementHolds nested e v)
    (he : e.Within S) : ElementHolds (fun m => nested m ∧ S m.type) e v := by
  cases e with
  | message type =>
    obtain ⟨m, rfl, rfl, hm⟩ := h
    exact ⟨m, rfl, rfl, hm, he⟩
  | _ => exact h

/-- A field whose messages are of types in `S` holds messages of types in `S`. -/
theorem FieldHolds.within {S : String → Prop} {f : Reflection.Field} {e : Element} {v : Value}
    (h : FieldHolds lib body nested f v) (hf : lib.elementOf? f = some e) (he : e.Within S) :
    FieldHolds lib body (fun m => nested m ∧ S m.type) f v := by
  cases h with
  | single map rep elem holds =>
    cases hf.symm.trans elem
    exact .single map rep elem (holds.within he)
  | unset map rep elem => exact .unset map rep elem
  | list map rep elem holds short =>
    cases hf.symm.trans elem
    exact .list map rep elem (fun v hv => (holds v hv).within he) short
  | dict map elem distinct holds short =>
    cases hf.symm.trans elem
    exact .dict map elem distinct (fun x hx => ⟨(holds x hx).1, (holds x hx).2.within he⟩) short

theorem Scalar.Holds.flat {k : Scalar} {v : Value} (h : k.Holds v) : v.Flat := by
  cases h <;> trivial

theorem EnumHolds.typed {v : Value} (h : EnumHolds v) : EnumTyped v := h.imp fun _ h => h.1

theorem EnumTyped.flat {v : Value} (h : EnumTyped v) : v.Flat := by
  obtain ⟨n, rfl | ⟨owner, name, rfl⟩⟩ := h <;> trivial

theorem scalar_ne_null {k : Scalar} {bs : List UInt8} {v : Value} (h : Takes (Reader.scalar k) bs v) :
    v ≠ .null := by
  rintro rfl
  have h := h 0 []
  cases k <;> (obtain ⟨_, _, -, h⟩ := bind_eq_ok.mp h; cases h)

theorem writeScalar_integer {k : Scalar} {v : Value} {n : Int} (hk : k.isInteger = true)
    (hv : v.toInteger = .ok n) : writeScalar k v = lift (k.write (.int n)).toExcept := by
  simp only [writeScalar, hk, hv, if_true]
  rfl

theorem writeScalar_other {k : Scalar} {v : Value} (hk : k.isInteger = false) :
    writeScalar k v = lift (k.write v).toExcept := by
  simp only [writeScalar, hk]
  rfl

/-- A scalar is written and read back as an equal value. -/
theorem writeScalar_takes {k : Scalar} {v : Value} (h : k.Holds v) :
    ∃ bs v', writeScalar k v = .ok bs ∧ Takes (Reader.scalar k) bs v' ∧ v'.sameKey v = true ∧
      (k ≠ .float → v' = v) ∧ WireValue k.wireType.number bs := by
  obtain ⟨bs, v', hwrite, ht, hkey, heq, hw⟩ := Scalar.write_takes h
  refine ⟨bs, v', ?_, ht, hkey, heq, hw⟩
  cases h with
  | @integer k n range =>
    have hk : k.isInteger = true := by cases k <;> first | rfl | cases range
    rw [writeScalar_integer hk rfl, hwrite]
    rfl
  | _ =>
    rw [writeScalar_other rfl, hwrite]
    rfl

/-- The number of an enum value is written and read back. -/
theorem writeScalar_enum {v : Value} (h : EnumHolds v) :
    ∃ bs n, writeScalar .int32 v = .ok bs ∧ v.integer? = some n ∧ Takes Reader.int32 bs n ∧ WireValue 0 bs := by
  obtain ⟨n, hv, range⟩ := h
  obtain ⟨bs, hwrite, ht, hw⟩ := Scalar.write_int_takes range
  have hint : v.integer? = some n := by
    obtain rfl | ⟨owner, name, rfl⟩ := hv <;> rfl
  have htoInt : v.toInteger = .ok n := by
    obtain rfl | ⟨owner, name, rfl⟩ := hv <;> rfl
  refine ⟨bs, n, ?_, hint, ?_, hw⟩
  · rw [writeScalar_integer rfl htoInt, hwrite]
    rfl
  · intro pos tail
    obtain ⟨n', r, hr, h⟩ := bind_eq_ok.mp (ht pos tail)
    cases h
    exact hr

/-- A member for a number is equal to the number. -/
theorem EnumClass.ofValue_sameKey (enum : EnumClass) {v : Value} {n : Int} (htyped : EnumTyped v)
    (hv : v.integer? = some n) : (enum.ofValue (.int n)).sameKey v = true ∧ enum.ofValue (.int n) ≠ .null := by
  have hself (w : Value) (hw : w.integer? = some n) (hs : w.string? = none) : w.sameKey v = true := by
    obtain ⟨k, rfl | ⟨owner, name, rfl⟩⟩ := htyped <;> cases hv <;>
      cases w <;> simp_all [Value.sameKey, Value.string?, Value.numberEqual, Value.integer?]
  unfold EnumClass.ofValue
  split
  next x hx =>
    have hn : n = x.2 := by
      simpa [Value.numberEqual, Value.integer?] using List.find?_some hx
    exact ⟨hself _ (by rw [hn]; rfl) rfl, by rintro ⟨⟩⟩
  next => exact ⟨hself _ rfl rfl, by rintro ⟨⟩⟩

/-- The value that the number of an enum is read as. -/
def Library.enumValue (lib : Library) (type : String) (n : Int) : Value :=
  match lib.enum? type with
  | some enum => enum.ofValue (.int n)
  | none => .int n

/-- A message behind its length is read back, where a message is expected. -/
theorem readMessage_takes {type : String} {bs : List UInt8} {v : Value} (hshort : bs.length < 2 ^ 32)
    (h : lib.ofBytes type bs = .ok v) {fuel : Nat} (hf : (Wire.bytes bs).length ≤ fuel) :
    Takes (lib.readElement (lib.decodeUpTo fuel) (.message type)) (Wire.bytes bs) v := by
  obtain ⟨c, m₀, m, hc, h₀, hrun, rfl⟩ := Library.ofBytes_eq_ok_iff.mp h
  obtain ⟨hlen, hmod⟩ := Wire.length_grammar hshort
  have hpos := List.length_pos_iff.mpr hlen.ne_nil
  rw [Wire.bytes, List.length_append] at hf
  refine runEnd_takes hlen ?_
  rw [← hmod]
  exact Library.Reads.decodeUpTo hc h₀ (hrun.steps Library.Reads.ne_nil) (by omega)

/-- **An element is written behind a key and read back as an equal value.** -/
theorem writeElement_carries (hn : Returns lib body nested) {e : Element} {v : Value}
    (h : ElementHolds nested e v) :
    ∃ payload v', (∀ number, writeElement body number e v =
        .ok (Wire.key number e.wireType.number ++ payload)) ∧
      (∀ k, e.packedKind? = some k → writeScalar k v = .ok payload) ∧ Carries lib e v payload v' := by
  cases e with
  | scalar k =>
    obtain ⟨bs, v', hwrite, ht, hkey, -, hw⟩ := writeScalar_takes h
    refine ⟨bs, v', fun number => by simp only [writeElement, hwrite]; rfl, fun k' hk' => ?_, ?_⟩
    · simp only [Element.packedKind?, Option.ite_none_right_eq_some, Option.some.injEq] at hk'
      rw [← hk'.2, hwrite]
    · exact {
        framed := hw
        takes := fun _ _ => ofRead_takes ht
        equals := .flat (Scalar.Holds.flat h) hkey
        ne_null := scalar_ne_null ht
        missing := ⟨_, rfl⟩ }
  | enum type =>
    obtain ⟨bs, n, hwrite, hint, ht, hw⟩ := writeScalar_enum h
    refine ⟨bs, lib.enumValue type n, fun number => by simp only [writeElement, hwrite]; rfl,
      fun k hk => by cases hk; exact hwrite, ?_⟩
    have hread : (lib.enumValue type n).sameKey v = true ∧ lib.enumValue type n ≠ .null := by
      unfold Library.enumValue
      cases lib.enum? type with
      | some enum => exact enum.ofValue_sameKey h.typed hint
      | none =>
        -- A class without names reads plain numbers.
        exact EnumClass.ofValue_sameKey ⟨"", "", []⟩ h.typed hint
    exact {
      framed := hw
      takes := fun _ _ => (ofRead_takes ht).map
      equals := .flat h.typed.flat hread.1
      ne_null := hread.2
      missing := ⟨_, rfl⟩ }
  | message type =>
    obtain ⟨m, rfl, rfl, hm⟩ := h
    obtain ⟨bs, v', hbody, hshort, hread, hequal⟩ := hn m hm
    refine ⟨Wire.bytes bs, v', fun number => ?_, fun k hk => (by cases hk), ?_⟩
    · simp only [writeElement, Instance.ofValue?_value, hbody]
      rfl
    · obtain ⟨c, m₀, m', hc, h₀, -, rfl⟩ := Library.ofBytes_eq_ok_iff.mp hread
      exact {
        framed := Wire.bytes_value hshort
        takes := fun _ => readMessage_takes hshort hread
        equals := hequal
        ne_null := by rintro ⟨⟩
        missing := ⟨m₀.value, by simp only [Library.missingValue, Library.fresh, hc, h₀]; rfl⟩ }

end ProtoBind.Message
