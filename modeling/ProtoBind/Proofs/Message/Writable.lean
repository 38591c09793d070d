/-
Values that can be written.

A scalar kind refuses integers outside a fixed signed width and floats beyond
single precision; any other value of the kind is written and read back, though
not always as the same (`Scalar.Writable.written`). A field that holds such
values, or its default, is written as records that its reader takes
(`FieldTyped.written`, `default_written`).
-/
import ProtoBind.Proofs.Message.Merging

namespace ProtoBind

/-- A value of the kind that is not refused by its writer: integers of fixed signed kinds are in their range, and
floats do not overflow single precision. -/
def Scalar.Writable (k : Scalar) (v : Value) : Prop :=
  k.Accepts v ∧
    match k with
    | .sfixed32 | .sfixed64 => ∀ n, v = .int n → k.InRange n
    | .float => ∀ x, v = .float x → x.toSingle?.isSome = true
    | _ => True

/-- An integer of any size is read back as one of 32 bits. -/
theorem Wire.int32_takes (n : Int) : ∃ k, Takes Reader.int32 (Wire.int32 n) k := by
  have hl32 := Wire.reduce_lt 32 n
  have hl64 := Wire.reduce_lt 64 n
  have hb : (if n < 0 then Wire.reduce 64 n else Wire.reduce 32 n) < 2 ^ 64 := by split <;> omega
  exact ⟨_, (Reader.uint32_takes (Wire.varint_word hb)).map⟩

/-- An integer is written as one of its kind and read back, reduced to the width of the kind. -/
theorem Scalar.write_integer {k : Scalar} (hk : k.isInteger = true) {n : Int} (h : k.Writable (.int n)) :
    ∃ bs v, (k.write (.int n)).toExcept = .ok bs ∧ Takes (Reader.scalar k) bs v := by
  have h32 {m : Nat} (hm : m < 2 ^ 64) : Takes Reader.uint32 (Wire.varint m) (m % Nat.pow 2 32) :=
    Reader.uint32_takes (Wire.varint_word hm)
  have h64 {m : Nat} (hm : m < 2 ^ 64) : Takes Reader.uint64 (Wire.varint m) (m % Nat.pow 2 64) :=
    (Reader.varintUpTo_takes (Wire.varint_word hm)).map
  have hl32 := Wire.reduce_lt 32 n
  have hl64 := Wire.reduce_lt 64 n
  cases k with
  | uint32 => exact ⟨_, _, rfl, (h32 (by omega)).map⟩
  | uint64 => exact ⟨_, _, rfl, (h64 hl64).map⟩
  | int32 =>
    obtain ⟨k, hk⟩ := Wire.int32_takes n
    exact ⟨_, _, rfl, hk.map⟩
  | int64 => exact ⟨_, _, rfl, (h64 hl64).map.map⟩
  | sint32 =>
    have hz : Wire.zigzag 32 n < 2 ^ 32 := Nat.xor_lt_two_pow (Wire.reduce_lt 32 _) (Wire.reduce_lt 32 _)
    exact ⟨_, _, rfl, (h32 (by omega)).map.map⟩
  | sint64 =>
    have hz : Wire.zigzag 64 n < 2 ^ 64 := Nat.xor_lt_two_pow (Wire.reduce_lt 64 _) (Wire.reduce_lt 64 _)
    exact ⟨_, _, rfl, (h64 hz).map.map⟩
  | fixed32 => exact ⟨_, _, rfl, (Wire.littleEndian_takes (w := 4) (by omega)).map⟩
  | fixed64 => exact ⟨_, _, rfl, (Wire.littleEndian_takes (w := 8) (by omega)).map⟩
  | sfixed32 | sfixed64 =>
    obtain ⟨bs, hwrite, htakes, -⟩ := Scalar.write_int_takes (h.2 n rfl)
    exact ⟨bs, _, by rw [hwrite]; rfl, htakes⟩
  | double | float | bool | string | bytes => cases hk

namespace Message

variable {lib : Library} {body : Instance → Except Fault (List UInt8)} {nested : Instance → Prop} {c : MessageClass}
  {m : Instance} {f : Reflection.Field} {p : FieldCodec} {k : Scalar} {v : Value}

/-! ## Elements -/

/-- **A value that is not refused is written, and read back as far as its length can be.** -/
theorem Scalar.Writable.written (h : k.Writable v) :
    ∃ bs, writeScalar k v = .ok bs ∧ (bs.length < 2 ^ 32 → ∃ v', Takes (Reader.scalar k) bs v') := by
  have haccepts := h.1
  unfold Scalar.Accepts at haccepts
  cases hclass : k.valueClass with
  | integer =>
    simp only [hclass] at haccepts
    obtain ⟨n, rfl⟩ := haccepts
    have hk : k.isInteger = true := by cases k <;> first | rfl | cases hclass
    obtain ⟨bs, v', hwrite, htakes⟩ := Scalar.write_integer hk h
    exact ⟨bs, by rw [writeScalar_integer hk rfl, hwrite]; rfl, fun _ => ⟨v', htakes⟩⟩
  | truth =>
    simp only [hclass] at haccepts
    obtain ⟨b, rfl⟩ := haccepts
    obtain rfl : k = .bool := by cases k <;> first | rfl | cases hclass
    obtain ⟨bs, v', hwrite, htakes, -⟩ := writeScalar_takes (.truth b)
    exact ⟨bs, hwrite, fun _ => ⟨v', htakes⟩⟩
  | text =>
    simp only [hclass] at haccepts
    obtain ⟨s, rfl⟩ := haccepts
    obtain rfl : k = .string := by cases k <;> first | rfl | cases hclass
    have hwritten : writeScalar .string (.text s) = .ok (Wire.string s) := rfl
    refine ⟨_, hwritten, fun hshort => ?_⟩
    rw [Wire.string, Wire.bytes, List.length_append] at hshort
    obtain ⟨bs, v', hwrite, htakes, -⟩ := writeScalar_takes (.text (s := s) (by omega))
    exact ⟨v', Except.ok.inj (hwritten.symm.trans hwrite) ▸ htakes⟩
  | octets =>
    simp only [hclass] at haccepts
    obtain ⟨octets, rfl⟩ := haccepts
    obtain rfl : k = .bytes := by cases k <;> first | rfl | cases hclass
    have hwritten : writeScalar .bytes (.bytes octets) = .ok (Wire.bytes octets) := rfl
    refine ⟨_, hwritten, fun hshort => ?_⟩
    rw [Wire.bytes, List.length_append] at hshort
    obtain ⟨bs, v', hwrite, htakes, -⟩ := writeScalar_takes (.octets (by omega : octets.length < 2 ^ 32))
    exact ⟨v', Except.ok.inj (hwritten.symm.trans hwrite) ▸ htakes⟩
  | floating =>
    simp only [hclass] at haccepts
    obtain ⟨x, rfl⟩ := haccepts
    cases k with
    | double =>
      have hx : x.word < 256 ^ 8 := by
        have := x.bits.toNat_lt
        simp only [Binary64.word]
        omega
      exact ⟨_, rfl, fun _ => ⟨_, (Wire.littleEndian_takes hx).map.map⟩⟩
    | float =>
      obtain ⟨w, hw⟩ := Option.isSome_iff_exists.mp (h.2 x rfl)
      have hword : w.toNat < 256 ^ 4 := w.toNat_lt
      have hwrite : (Scalar.float.write (.float x)).toExcept = .ok (Wire.littleEndian 4 w.toNat) := by
        simp only [Scalar.write, Wire.floating, bind, Except.bind, Wire.single, hw, Wire.Written.ofExcept]
        rfl
      exact ⟨_, by rw [writeScalar_other rfl, hwrite]; rfl, fun _ => ⟨_, (Wire.littleEndian_takes hword).map.map⟩⟩
    | _ => cases hclass

/-- The messages that `nested` admits are written by `body`, and read back as far as the length of what is written can
be. -/
def Delivers (lib : Library) (body : Instance → Except Fault (List UInt8)) (nested : Instance → Prop) : Prop :=
  ∀ m, nested m → ∃ bs, body m = .ok bs ∧ (bs.length < 2 ^ 32 → ∃ v, lib.ofBytes m.type bs = .ok v)

/-- **An element is written behind a key**, and its payload is read back. -/
theorem ElementTyped.written (hn : Delivers lib body nested) {e : Element}
    (h : ElementTyped Scalar.Writable nested e v) :
    ∃ payload, (∀ number, writeElement body number e v = .ok (Wire.key number e.wireType.number ++ payload)) ∧
      (∀ k, e.packedKind? = some k → writeScalar k v = .ok payload) ∧
      (payload.length < 2 ^ 32 → ∃ v', lib.Yields e payload v') := by
  cases e with
  | scalar k =>
    obtain ⟨bs, hwrite, htakes⟩ := Scalar.Writable.written h
    refine ⟨bs, fun number => by simp only [writeElement, hwrite]; rfl, fun k' hk' => ?_, fun hshort => ?_⟩
    · simp only [Element.packedKind?, Option.ite_none_right_eq_some, Option.some.injEq] at hk'
      rw [← hk'.2, hwrite]
    · obtain ⟨v', ht⟩ := htakes hshort
      exact ⟨v', fun _ _ => ofRead_takes ht⟩
  | enum type =>
    obtain ⟨n, hv⟩ := h
    obtain ⟨k, hk⟩ := Wire.int32_takes n
    have hn : v.toInteger = .ok n := by obtain rfl | ⟨owner, name, rfl⟩ := hv <;> rfl
    have hwrite : writeScalar .int32 v = .ok (Wire.int32 n) := by
      rw [writeScalar_integer rfl hn]
      rfl
    exact ⟨_, fun number => by simp only [writeElement, hwrite]; rfl, fun k hk => by cases hk; exact hwrite,
      fun _ => ⟨lib.enumValue type k, fun _ _ => (ofRead_takes hk).map⟩⟩
  | message type =>
    obtain ⟨m, rfl, rfl, hm⟩ := h
    obtain ⟨bs, hbody, hread⟩ := hn m hm
    refine ⟨Wire.bytes bs, fun number => ?_, (fun _ hk => by cases hk), fun hshort => ?_⟩
    · simp only [writeElement, Instance.ofValue?_value, hbody]
      rfl
    · rw [Wire.bytes, List.length_append] at hshort
      have hbs : bs.length < 2 ^ 32 := by omega
      obtain ⟨v', hv'⟩ := hread hbs
      exact ⟨v', fun _ => readMessage_takes hbs hv'⟩

/-! ## Fields -/

/-- The payloads of the records of a field are taken by its read, as far as their lengths can be written. -/
def Library.Receives (lib : Library) (p : FieldCodec) (records : List (Nat × List UInt8)) : Prop :=
  ∀ x ∈ records, p.Frames x.1 ∧ (x.2.length < 2 ^ 32 → ∃ e, lib.Gives p x.1 x.2 e)

theorem Library.Receives.nil (lib : Library) (p : FieldCodec) : lib.Receives p [] := nofun

/-- A value behind its key is a record of a single field. -/
theorem writeValue_single (hn : Delivers lib body nested) (hm : Matches lib f p) (harity : p.arity = .single)
    (h : ElementTyped Scalar.Writable nested p.element v) :
    ∃ payload, lib.writeValue body f p.number v =
      .ok (recordBytes p.number [(p.element.wireType.number, payload)]) ∧
        lib.Receives p [(p.element.wireType.number, payload)] := by
  obtain ⟨payload, hwrite, -, hread⟩ := h.written hn
  refine ⟨payload, ?_, List.forall_mem_singleton.mpr ⟨by rw [FieldCodec.Frames, harity], fun hshort => ?_⟩⟩
  · simp only [Library.writeValue, hm.element, hwrite, recordBytes, List.flatMap_singleton]
  · obtain ⟨v', hv'⟩ := hread hshort
    exact ⟨_, hv'.value hm.read harity _⟩

/-- A list is written as one run or item by item. -/
theorem writeField_list_receives (hn : Delivers lib body nested) (hm : Matches lib f p) (hone : f.oneof = none)
    (hmap : f.isMap = false) (hrep : f.repeated = true) {items : List Value}
    (h : ∀ v ∈ items, ElementTyped Scalar.Writable nested p.element v) (m : Instance) :
    ∃ records, lib.writeField body m f (.list items) = .ok (recordBytes p.number records) ∧
      lib.Receives p records := by
  have harity := hm.shape.eq_repeated hmap hrep
  cases items with
  | nil => exact ⟨[], writeField_empty m hone hmap hrep, .nil lib p⟩
  | cons first rest =>
    cases hk : lib.packedKind? f with
    | some k =>
      have hpacked := packedKind?_element hm.element hk
      have hpackable := Element.isPackable_of_kind hpacked
      obtain ⟨payloads, hwrite, hall⟩ := writeAll_exists (writeScalar k) id
        (fun _ bs => bs.length < 2 ^ 32 → ∃ v', lib.Yields p.element bs v') fun v hv => by
          obtain ⟨payload, -, hpack, hread⟩ := (h v hv).written hn
          exact ⟨payload, hpack k hpacked, hread⟩
      rw [List.flatMap_id] at hwrite
      refine ⟨[(2, Wire.bytes payloads.flatten)], ?_, List.forall_mem_singleton.mpr ⟨?_, fun hshort => ?_⟩⟩
      · rw [writeField_run m hm.id hone hmap hrep hk, hwrite, recordBytes, List.flatMap_singleton]
        rfl
      · rw [FieldCodec.Frames, harity]
        exact .inr ⟨hpackable, rfl⟩
      · rw [Wire.bytes, List.length_append] at hshort
        obtain ⟨vs, hvs⟩ : ∃ vs, List.Forall₂ (fun bs v => lib.Yields p.element bs v) payloads vs :=
          forall₂_exists fun bs hbs => by
            obtain ⟨v, -, hread⟩ := forall₂_mem hall.flip hbs
            have hle := (List.sublist_flatten_of_mem hbs).length_le
            exact hread (by omega)
        exact ⟨.items vs, .run hm.read harity hpackable (by omega) hvs.flip⟩
    | none =>
      obtain ⟨payloads, hwrite, hall⟩ := writeAll_exists (lib.writeValue body f p.number)
        (fun bs => Wire.key p.number p.element.wireType.number ++ bs)
        (fun _ bs => bs.length < 2 ^ 32 → ∃ v', lib.Yields p.element bs v') fun v hv => by
          obtain ⟨payload, hwrite, -, hread⟩ := (h v hv).written hn
          exact ⟨payload, by simp only [Library.writeValue, hm.element, hwrite], hread⟩
      refine ⟨payloads.map (p.element.wireType.number, ·), ?_,
        List.forall_mem_map.mpr fun bs hbs => ⟨?_, fun hshort => ?_⟩⟩
      · rw [writeField_items m hm.id hone hmap hrep hk, hwrite, recordBytes, List.flatMap_map]
      · rw [FieldCodec.Frames, harity]
        exact .inl rfl
      · obtain ⟨v, -, hread⟩ := forall₂_mem hall.flip hbs
        obtain ⟨v', hv'⟩ := hread hshort
        exact ⟨_, hv'.item hm.read harity⟩

/-- The entries of a map are written one by one. -/
theorem writeField_dict_receives (hn : Delivers lib body nested) (hm : Matches lib f p) (hone : f.oneof = none)
    {key : Scalar} (hkey : f.keyType = .text key.name) (hmissing : ∃ v, lib.missingPart p = .ok v)
    {entries : List (Value × Value)}
    (h : ∀ x ∈ entries, key.Writable x.1 ∧ ElementTyped Scalar.Writable nested p.element x.2) (m : Instance) :
    ∃ records, lib.writeField body m f (.dict entries) = .ok (recordBytes p.number records) ∧
      lib.Receives p records := by
  have harity := hm.shape.eq_map hkey
  obtain ⟨v₀, hv₀⟩ := hmissing
  obtain ⟨payloads, hwrite, hall⟩ := writeAll_exists
    (fun x : Value × Value => do
      return Wire.key p.number 2 ++ Wire.bytes ((← Library.writeMapKey f x.1) ++ (← lib.writeValue body f 2 x.2)))
    (fun bs => Wire.key p.number 2 ++ Wire.bytes bs)
    (fun _ bs => bs.length < 2 ^ 32 → ∃ e, lib.Gives p 2 (Wire.bytes bs) e) fun x hx => by
      obtain ⟨hk, hv⟩ := h x hx
      obtain ⟨ks, hks, hreadKey⟩ := Scalar.Writable.written hk
      obtain ⟨vs, hvs, -, hread⟩ := hv.written hn
      have hwk := writeMapKey_ok hkey hks
      have hwv : lib.writeValue body f 2 x.2 = .ok (Wire.key 2 p.element.wireType.number ++ vs) := by
        simp only [Library.writeValue, hm.element, hvs]
      refine ⟨_, by simp only [hwk, hwv]; rfl, fun hshort => ?_⟩
      have hlengths := hshort
      simp only [List.length_append] at hlengths
      obtain ⟨k', hk'⟩ := hreadKey (by omega)
      obtain ⟨v', hv'⟩ := hread (by omega)
      exact ⟨_, Library.Yields.entry hm.read harity hv₀ hk' hv' hshort⟩
  refine ⟨payloads.map fun bs => (2, Wire.bytes bs), ?_, List.forall_mem_map.mpr fun bs hbs => ⟨?_, fun hshort => ?_⟩⟩
  · rw [writeField_entries m hm.id hone (HasArity.isMap hkey), recordBytes, List.flatMap_map]
    exact hwrite
  · rw [FieldCodec.Frames, harity]
    rfl
  · obtain ⟨x, -, hread⟩ := forall₂_mem hall.flip hbs
    rw [Wire.bytes, List.length_append] at hshort
    exact hread (by omega)

/-- **A field outside the groups is written as records that its reader takes.** -/
theorem FieldTyped.written (hn : Delivers lib body nested) (hm : Matches lib f p) (hone : f.oneof = none)
    (hmissing : ∃ v, lib.missingPart p = .ok v) (h : FieldTyped Scalar.Writable lib nested f v) (m : Instance) :
    ∃ records, lib.writeField body m f v = .ok (recordBytes p.number records) ∧ lib.Receives p records := by
  cases h with
  | single hmap hrep elem typed =>
    cases hm.element.symm.trans elem
    rw [writeField_value m hm.id hone hmap hrep (typed.ne_null fun _ _ h => h.1)]
    split
    · exact ⟨[], rfl, .nil lib p⟩
    · obtain ⟨payload, hwrite, hreceives⟩ := writeValue_single hn hm (hm.shape.eq_single hmap hrep) typed
      exact ⟨_, hwrite, hreceives⟩
  | unset hmap hrep elem => exact ⟨[], writeField_unset m hone hmap hrep, .nil lib p⟩
  | list hmap hrep elem typed =>
    cases hm.element.symm.trans elem
    exact writeField_list_receives hn hm hone hmap hrep typed m
  | dict hkey elem distinct typed =>
    cases hm.element.symm.trans elem
    exact writeField_dict_receives hn hm hone hkey hmissing typed m

/-- A float that is not a number has a pattern in single precision. -/
theorem toSingle?_of_isNaN {x : Binary64} (h : x.isNaN = true) : x.toSingle?.isSome = true := by
  simp only [Binary64.toSingle?, h, if_true, Option.isSome_some]

/-- **The default of a field is written as records that its reader takes**, also when it is a value that its kind
refuses: then it is left out. -/
theorem default_written (hn : Delivers lib body nested) (hm : Matches lib f p) (hone : f.oneof = none)
    (hmissing : ∃ v, lib.missingPart p = .ok v)
    (h : FieldTyped Scalar.Accepts lib (fun _ => False) f f.newDefault) (m : Instance) :
    ∃ records, lib.writeField body m f f.newDefault = .ok (recordBytes p.number records) ∧ lib.Receives p records := by
  generalize hv : f.newDefault = v at h
  cases h with
  | @single e _ hmap hrep elem typed =>
    cases hm.element.symm.trans elem
    have hdefault : f.default = v := by simpa [Reflection.Field.newDefault, hmap, hrep] using hv
    cases he : p.element with
    | scalar k =>
      rw [he] at typed
      by_cases hdefinite : k.Definite v
      · have hequal : lib.equal v v = true :=
          (Library.Equals.flat (Scalar.Definite.flat hdefinite) (Scalar.Definite.self hdefinite)).equal
        have hmessage : lib.isMessageField f = false := by simp only [Library.isMessageField, elem, he]
        refine ⟨[], ?_, .nil lib p⟩
        rw [writeField_value m hm.id hone hmap hrep (Scalar.Accepts.ne_null typed), hdefault, hmessage, hequal]
        rfl
      · -- Only a float can differ from itself, and such a one is written.
        obtain ⟨x, rfl, hx⟩ : ∃ x, v = .float x ∧ x.isNaN = true := by
          by_contra hnone
          exact hdefinite ⟨typed, fun x hx => Bool.eq_false_iff.mpr fun hnan => hnone ⟨x, hx, hnan⟩⟩
        have hwritable : k.Writable (.float x) := by
          refine ⟨typed, ?_⟩
          cases k with
          | sfixed32 | sfixed64 => rintro _ ⟨⟩
          | float =>
            rintro _ ⟨⟩
            exact toSingle?_of_isNaN hx
          | _ => trivial
        exact FieldTyped.written hn hm hone hmissing (.single hmap hrep (elem.trans (congrArg some he)) hwritable) m
    | enum type =>
      rw [he] at typed
      exact FieldTyped.written hn hm hone hmissing (.single hmap hrep (elem.trans (congrArg some he)) typed) m
    | message type =>
      rw [he] at typed
      obtain ⟨_, -, -, hm⟩ := typed
      exact hm.elim
  | unset hmap hrep elem => exact ⟨[], writeField_unset m hone hmap hrep, .nil lib p⟩
  | @list e items hmap hrep elem typed =>
    obtain rfl : items = [] := by simpa [Reflection.Field.newDefault, hmap, hrep] using hv.symm
    exact ⟨[], writeField_empty m hone hmap hrep, .nil lib p⟩
  | @dict key e entries hkey elem distinct typed =>
    obtain rfl : entries = [] := by simpa [Reflection.Field.newDefault, HasArity.isMap hkey] using hv.symm
    exact FieldTyped.written hn hm hone hmissing
      (.dict hkey elem .nil (fun _ hmem => absurd hmem List.not_mem_nil)) m

end Message
end ProtoBind
