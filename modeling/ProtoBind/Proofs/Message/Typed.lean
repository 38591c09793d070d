/-
Messages whose fields hold values of their types.

`Library.TypedUpTo` says that every field of an instance holds a value of its
type, where it is left open what the values of a scalar kind are. No lengths
are bounded and no keys are compared with those on the wire: `Library.Holds`
is what is left of these instances when they are to be written and read back
as equals (`HoldsUpTo.typed`). The two sides of a class need agree in their
contents only (`Paired`).
-/
import ProtoBind.Proofs.Message.RoundTrip
import ProtoBind.Proofs.Reflection.Image

namespace ProtoBind

/-- A value of the kind, other than the one that is not a number. -/
def Scalar.Definite (k : Scalar) (v : Value) : Prop :=
  k.Accepts v ∧ ∀ x, v = .float x → x.isNaN = false

namespace Message

/-! ## Values of a type -/

variable (P : Scalar → Value → Prop)

/-- A value of an element: `P` says what the values of a scalar kind are, and `nested` which messages are
typed. -/
def ElementTyped (nested : Instance → Prop) : Element → Value → Prop
  | .scalar k, v => P k v
  | .enum _, v => EnumTyped v
  | .message type, v => ∃ m : Instance, v = m.value ∧ m.type = type ∧ nested m

/-- A value of a field outside the groups. -/
inductive FieldTyped (lib : Library) (nested : Instance → Prop) (f : Reflection.Field) : Value → Prop
  | single {e : Element} {v : Value} (map : f.isMap = false) (rep : f.repeated = false)
      (elem : lib.elementOf? f = some e) (typed : ElementTyped P nested e v) : FieldTyped lib nested f v
  | unset {type : String} (map : f.isMap = false) (rep : f.repeated = false)
      (elem : lib.elementOf? f = some (.message type)) : FieldTyped lib nested f .null
  | list {e : Element} {items : List Value} (map : f.isMap = false) (rep : f.repeated = true)
      (elem : lib.elementOf? f = some e) (typed : ∀ v ∈ items, ElementTyped P nested e v) :
      FieldTyped lib nested f (.list items)
  | dict {key : Scalar} {e : Element} {entries : List (Value × Value)} (map : f.keyType = .text key.name)
      (elem : lib.elementOf? f = some e) (distinct : entries.Pairwise fun x y => x.1.sameKey y.1 = false)
      (typed : ∀ x ∈ entries, P key x.1 ∧ ElementTyped P nested e x.2) : FieldTyped lib nested f (.dict entries)

/-- An instance of a class: each field outside the groups holds a value of its type, and each group that is set has a
declared member with a value of its type. -/
structure InstanceTyped (lib : Library) (nested : Instance → Prop) (c : MessageClass) (m : Instance) : Prop where
  regular : ∀ f ∈ c.fields, f.oneof = none → ∃ v, m.attrs.lookup f.attr = some v ∧ FieldTyped P lib nested f v
  wellSet : WellSet c m
  chosen : ∀ f ∈ c.fields, ∀ group v, Chosen m f group v → ∃ e, lib.elementOf? f = some e ∧ ElementTyped P nested e v

namespace Library

/-- The instance is typed, down to a depth of nesting. -/
def TypedUpTo (lib : Library) : Nat → Instance → Prop
  | 0, _ => False
  | fuel + 1, m => ∃ c, lib.message? m.type = some c ∧ InstanceTyped P lib (lib.TypedUpTo fuel) c m

/-- The instance is typed. -/
def Typed (lib : Library) (m : Instance) : Prop := lib.TypedUpTo P m.value.depth m

end Library

/-! ## Classes -/

/-- The two sides of a class describe the same fields, under attributes of their own. -/
structure Paired (lib : Library) (c : MessageClass) : Prop extends Arranged c where
  fields : List.Forall₂ (Matches lib) c.fields c.codecs

/-- Every class of the library is paired. -/
def Library.IsPaired (lib : Library) : Prop := ∀ type c, lib.message? type = some c → Paired lib c

variable {P} {lib : Library} {body : Instance → Except Fault (List UInt8)} {nested : Instance → Prop}
  {S : String → Prop} {c : MessageClass} {m : Instance} {f : Reflection.Field} {v : Value}

theorem Coherent.paired (hc : Coherent lib c) : Paired lib c :=
  ⟨hc.arranged, hc.agrees.imp fun _ _ => Agrees.matches⟩

theorem Library.IsCoherent.paired (hl : lib.IsCoherent) : lib.IsPaired := fun type c hc => (hl type c hc).paired

/-! ## What typed values are -/

theorem Scalar.Accepts.flat {k : Scalar} (h : k.Accepts v) : v.Flat := by
  unfold Scalar.Accepts at h
  cases hk : k.valueClass <;> (simp only [hk] at h; obtain ⟨_, rfl⟩ := h; trivial)

theorem Scalar.Accepts.ne_null {k : Scalar} (h : k.Accepts v) : v ≠ .null := by
  unfold Scalar.Accepts at h
  cases hk : k.valueClass <;> (simp only [hk] at h; obtain ⟨_, rfl⟩ := h; rintro ⟨⟩)

/-- Null is a value of no element. -/
theorem ElementTyped.ne_null (hP : ∀ k v, P k v → k.Accepts v) {e : Element} (h : ElementTyped P nested e v) :
    v ≠ .null := by
  cases e with
  | scalar k => exact Scalar.Accepts.ne_null (hP k v h)
  | enum type =>
    obtain ⟨n, rfl | ⟨owner, name, rfl⟩⟩ := h <;> rintro ⟨⟩
  | message type =>
    obtain ⟨m, rfl, -⟩ := h
    rintro ⟨⟩

theorem ElementTyped.within {e : Element} (h : ElementTyped P nested e v) (he : e.Within S) :
    ElementTyped P (fun m => nested m ∧ S m.type) e v := by
  cases e with
  | message type =>
    obtain ⟨m, rfl, rfl, hm⟩ := h
    exact ⟨m, rfl, rfl, hm, he⟩
  | _ => exact h

/-- A field whose messages are of types in `S` holds messages of types in `S`. -/
theorem FieldTyped.within {e : Element} (h : FieldTyped P lib nested f v) (hf : lib.elementOf? f = some e)
    (he : e.Within S) : FieldTyped P lib (fun m => nested m ∧ S m.type) f v := by
  cases h with
  | single map rep elem typed =>
    cases hf.symm.trans elem
    exact .single map rep elem (typed.within he)
  | unset map rep elem => exact .unset map rep elem
  | list map rep elem typed =>
    cases hf.symm.trans elem
    exact .list map rep elem fun v hv => (typed v hv).within he
  | dict map elem distinct typed =>
    cases hf.symm.trans elem
    exact .dict map elem distinct fun x hx => ⟨(typed x hx).1, (typed x hx).2.within he⟩

theorem ElementTyped.mono {nested' : Instance → Prop} (hn : ∀ m, nested m → nested' m) {e : Element}
    (h : ElementTyped P nested e v) : ElementTyped P nested' e v := by
  cases e with
  | message type =>
    obtain ⟨m, hv, htype, hm⟩ := h
    exact ⟨m, hv, htype, hn m hm⟩
  | _ => exact h

theorem FieldTyped.mono {nested' : Instance → Prop} (hn : ∀ m, nested m → nested' m) (h : FieldTyped P lib nested f v) :
    FieldTyped P lib nested' f v := by
  cases h with
  | single map rep elem typed => exact .single map rep elem (typed.mono hn)
  | unset map rep elem => exact .unset map rep elem
  | list map rep elem typed => exact .list map rep elem fun v hv => (typed v hv).mono hn
  | dict map elem distinct typed => exact .dict map elem distinct fun x hx => ⟨(typed x hx).1, (typed x hx).2.mono hn⟩

/-- A present field reads as what the instance holds, a value inside it. -/
theorem InstanceTyped.present (hc : Arranged c) (h : InstanceTyped P lib nested c m) (hf : f ∈ c.present m) :
    ∃ v, c.get m f.attr = .ok v ∧ v.depth < m.value.depth ∧
      ((f.oneof = none ∧ m.attrs.lookup f.attr = some v ∧ FieldTyped P lib nested f v) ∨
        ∃ group e, Chosen m f group v ∧ lib.elementOf? f = some e ∧ ElementTyped P nested e v) := by
  rw [MessageClass.present, List.mem_filter, Bool.or_eq_true, Option.isNone_iff_eq_none] at hf
  obtain ⟨hf, hpresent⟩ := hf
  by_cases hone : f.oneof = none
  · obtain ⟨v, hv, typed⟩ := h.regular f hf hone
    refine ⟨v, hc.get_regular hf hone hv, ?_, .inl ⟨hone, hv, typed⟩⟩
    have := Value.depth_attr hv
    simp only [Instance.value, Value.depth]
    omega
  · obtain ⟨group, v, hchosen⟩ := MessageClass.isActive_iff.mp (hpresent.resolve_left hone)
    obtain ⟨e, helem, typed⟩ := h.chosen f hf group v hchosen
    refine ⟨v, hc.get_chosen hf hchosen, ?_, .inr ⟨group, e, hchosen, helem, typed⟩⟩
    have := Value.depth_choice hchosen.2
    simp only [Instance.value, Value.depth]
    omega

/-! ## Values that can be written -/

theorem Scalar.Holds.definite {k : Scalar} (h : k.Holds v) : k.Definite v := by
  cases h with
  | @integer k n range =>
    refine ⟨?_, nofun⟩
    cases k <;> first | exact ⟨n, rfl⟩ | cases range
  | truth b => exact ⟨⟨b, rfl⟩, nofun⟩
  | @text s _ => exact ⟨⟨s, rfl⟩, nofun⟩
  | @octets bs _ => exact ⟨⟨bs, rfl⟩, nofun⟩
  | @double x number =>
    refine ⟨⟨x, rfl⟩, ?_⟩
    rintro _ ⟨⟩
    exact number
  | @single x _ _ unpack =>
    refine ⟨⟨x, rfl⟩, ?_⟩
    rintro _ ⟨⟩
    simp only [Binary64.equal, Bool.and_eq_true, Bool.not_eq_true'] at unpack
    exact unpack.1.2

theorem ElementHolds.typed {nested' : Instance → Prop} (hn : ∀ m, nested m → nested' m) {e : Element}
    (h : ElementHolds nested e v) : ElementTyped Scalar.Definite nested' e v := by
  cases e with
  | scalar k => exact Scalar.Holds.definite h
  | enum type => exact EnumHolds.typed h
  | message type =>
    obtain ⟨m, hv, htype, hm⟩ := h
    exact ⟨m, hv, htype, hn m hm⟩

theorem FieldHolds.typed {nested' : Instance → Prop} (hn : ∀ m, nested m → nested' m)
    (h : FieldHolds lib body nested f v) : FieldTyped Scalar.Definite lib nested' f v := by
  cases h with
  | single map rep elem holds => exact .single map rep elem (holds.typed hn)
  | unset map rep elem => exact .unset map rep elem
  | list map rep elem holds _ => exact .list map rep elem fun v hv => (holds v hv).typed hn
  | dict map elem distinct holds _ =>
    exact .dict map elem distinct fun x hx => ⟨Scalar.Holds.definite (holds x hx).1, (holds x hx).2.typed hn⟩

theorem InstanceHolds.typed {nested' : Instance → Prop} (hc : Arranged c) (hn : ∀ m, nested m → nested' m)
    (h : InstanceHolds lib body nested c m) : InstanceTyped Scalar.Definite lib nested' c m where
  regular f hf hone := (h.regular f hf hone).imp fun _ hv => ⟨hv.1, hv.2.typed hn⟩
  wellSet := h.wellSet
  chosen f hf group v hchosen := by
    obtain ⟨f', hf', -, hattr, e, helem, holds⟩ := h.chosen _ (Entries.mem_of_lookup hchosen.2)
    obtain rfl := hc.attr_inj hf' hf hattr
    exact ⟨e, helem, holds.typed hn⟩

/-- **An instance that can be written and read back is typed.** -/
theorem Library.HoldsUpTo.typed (hl : lib.IsCoherent) : ∀ (fuel : Nat) {m : Instance}, lib.HoldsUpTo fuel m →
    lib.TypedUpTo Scalar.Definite fuel m
  | 0, _, h => h.elim
  | fuel + 1, m, ⟨c, hc, h⟩ =>
    ⟨c, hc, h.typed (hl m.type c hc).arranged fun _ hn => HoldsUpTo.typed hl fuel hn.1⟩

end Message
end ProtoBind
