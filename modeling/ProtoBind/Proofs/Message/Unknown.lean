/-
Records that a class does not know.

A record with a number that the class does not declare leaves the instance as
it is (`Library.Reads.unknown`), so it can stand between any two records of a
message without changing what the message is (`Library.ofBytes_insert_unknown`).
The bytes around it are any that the class reads; they need not have been
written by an encoder.
-/
import ProtoBind.Proofs.Message.Records

namespace ProtoBind.Message

/-- No field of the class has the number. -/
def MessageClass.Undeclared (c : MessageClass) (number : Nat) : Prop :=
  ∀ p ∈ c.codecs, p.number ≠ (number : Int)

namespace Library

variable {lib : Library} {c : MessageClass}

theorem find?_undeclared {number : Nat} (h : c.Undeclared number) :
    c.codecs.find? (·.number == (number : Int)) = none := by
  rw [List.find?_eq_none]
  intro p hp he
  exact h p hp (by simpa using he)

/-- A record of an undeclared field is passed over. -/
theorem Reads.unknown {ks bs : List UInt8} {k : Nat} (hk : Varint 10 ks k)
    (hu : c.Undeclared (k % Nat.pow 2 32 / 8)) (hv : WireValue (k % 8) bs) (m : Instance) :
    lib.Reads c m (ks ++ bs) m := by
  have hw : k % Nat.pow 2 32 % 8 = k % 8 := by
    simp only [Nat.pow_eq]
    omega
  intro fuel _
  refine (ofRead_takes (Reader.uint32_takes hk)).bind ?_
  rw [find?_undeclared hu, hw]
  exact (ofRead_takes (Reader.skipType_takes hv)).bind_nil (Takes.pure m)

/-- **Unknown fields are transparent at every record boundary.** Where `p` and `p ++ q` are
messages, a record of an undeclared field between them changes nothing. Its key may be any
varint, and a group may hold anything up to the key that closes it. -/
theorem ofBytes_insert_unknown {type : String} {p q ks bs : List UInt8} {k : Nat} {v m : Value}
    (hc : lib.message? type = some c) (hp : lib.ofBytes type p = .ok v)
    (hpq : lib.ofBytes type (p ++ q) = .ok m) (hk : Varint 10 ks k)
    (hu : c.Undeclared (k % Nat.pow 2 32 / 8)) (hv : WireValue (k % 8) bs) :
    lib.ofBytes type (p ++ (ks ++ bs) ++ q) = .ok m := by
  obtain ⟨c₁, m₀, m₁, hc₁, h₀, hrun₁, -⟩ := ofBytes_eq_ok_iff.mp hp
  obtain ⟨c₂, m₀', m₂, hc₂, h₀', hrun₂, rfl⟩ := ofBytes_eq_ok_iff.mp hpq
  obtain rfl : c = c₁ := Option.some.inj (hc.symm.trans hc₁)
  obtain rfl : c = c₂ := Option.some.inj (hc.symm.trans hc₂)
  obtain rfl : m₀ = m₀' := Except.ok.inj (h₀.symm.trans h₀')
  have hq : lib.RunOf c m₁ q m₂ := Run.rest (T := lib.Reads c)
    (fun h₁ h₂ h => h₁.unique h₂ h) (fun h => h.ne_nil) hrun₁ hrun₂ rfl
  refine ofBytes_eq_ok_iff.mpr ⟨c, m₀, m₂, hc, h₀, ?_, rfl⟩
  exact (hrun₁.trans (.one (.unknown hk hu hv m₁))).trans hq

/-- The fields of points that may lead to another point. -/
def pointFields : List Reflection.Field := [
  { name := "x", fullName := "Point.x", id := .int 1, type := "int32", typeFault := none,
    repeated := false, keyType := .null, extend := .null, packed := .bool false, attr := "x",
    oneof := none, resolved := none, hasDefault := true, default := .int 0 },
  { name := "next", fullName := "Point.next", id := .int 2, type := ".Point", typeFault := none,
    repeated := false, keyType := .null, extend := .null, packed := .bool false, attr := "next",
    oneof := none, resolved := some (.object "Point"), hasDefault := false, default := .null }]

def pointClass : MessageClass where
  fullName := "Point"
  name := "Point"
  fields := pointFields
  codecs := [
    ⟨"x", "x", 1, .scalar .int32, .single, some (.scalar .int32), some (.scalar .int32)⟩,
    ⟨"next", "next", 2, .message "Point", .single, some (.message "Point"), some (.message "Point")⟩]
  descriptors := []

/-- A library with a class for points. -/
def pointLibrary : Library where
  tree := ⟨["Point"], [("Point", ⟨"Point", "Point", "", [], .message pointFields []⟩)]⟩
  messages := [pointClass]
  enums := []
  clients := []

/-- A point as an instance. -/
def pointValue (x : Int) (next : Value) : Value :=
  .message none "Point" [("x", .int x), ("next", next)] []

/-- A group that holds another group and a number, between the two fields of a point. -/
theorem ofBytes_insert_group :
    pointLibrary.ofBytes "Point" [8, 5] = .ok (pointValue 5 .null) ∧
    pointLibrary.ofBytes "Point" ([8, 5] ++ [18, 2, 8, 7]) =
      .ok (pointValue 5 (pointValue 7 .null)) ∧
    pointLibrary.ofBytes "Point" ([8, 5] ++ ([27] ++ [35, 36, 8, 150, 1, 12]) ++ [18, 2, 8, 7]) =
      .ok (pointValue 5 (pointValue 7 .null)) := by
  have hp : pointLibrary.ofBytes "Point" [8, 5] = .ok (pointValue 5 .null) := rfl
  have hpq : pointLibrary.ofBytes "Point" ([8, 5] ++ [18, 2, 8, 7]) =
      .ok (pointValue 5 (pointValue 7 .null)) := rfl
  have inner : WireValue 3 [36] := .groupEnd (.last (by decide)) rfl
  have number : WireValue 0 [150, 1] := .varint (.more (by decide) (.last (by decide)))
  have close : WireValue 3 [12] := .groupEnd (.last (by decide)) rfl
  have fields : WireValue 3 ([8] ++ ([150, 1] ++ [12])) := .groupField (.last (by decide)) number close
  have group : WireValue (27 % 8) ([35] ++ ([36] ++ [8, 150, 1, 12])) :=
    .groupField (.last (by decide)) inner fields
  refine ⟨hp, hpq, ofBytes_insert_unknown rfl hp hpq (.last (b := 27) (by decide)) ?_ group⟩
  simp only [MessageClass.Undeclared]
  decide

end Library
end ProtoBind.Message
