/-
What a class makes of the records of a field.

A class either has the codec of a field (`Keeps`) or none with its number
(`Drops`). Records of a dropped field leave the instance as it is. Records of
a kept field outside the groups change its attribute only, and leave there an
equal of the value that was written (`Sent.received`).
-/
import ProtoBind.Proofs.Entries
import ProtoBind.Proofs.Message.Sending
import ProtoBind.Proofs.Message.Unknown

namespace ProtoBind.Message

open Decode

/-- The class reads the field as it was written. -/
structure Keeps (c : MessageClass) (f : Reflection.Field) (p : FieldCodec) : Prop where
  found : c.codecs.find? (·.number == p.number) = some p
  descriptor : c.descriptor? f.attr = f.oneofAttr.map (.member f.attr)

/-- The class does not know the number of the field. -/
def Drops (c : MessageClass) (p : FieldCodec) : Prop := ∀ q ∈ c.codecs, q.number ≠ p.number

variable {lib writer : Library} {c : MessageClass} {f : Reflection.Field} {p : FieldCodec}

/-! ## Records -/

theorem key_parts {number : Int} (low : 0 ≤ number) (high : number < 2 ^ 29) {w : Nat} (hw : w < 8) :
    (8 * number.toNat + w) % Nat.pow 2 32 = 8 * number.toNat + w ∧
      (8 * number.toNat + w) / 8 = number.toNat ∧ (8 * number.toNat + w) % 8 = w ∧
      ((number.toNat : Nat) : Int) = number := by
  simp only [Nat.pow_eq]
  omega

/-- A record is read by the codec that has its number. -/
theorem reads_found (hfound : c.codecs.find? (·.number == p.number) = some p) (low : 0 ≤ p.number)
    (high : p.number < 2 ^ 29) {w : Nat} (hw : w < 8) {payload : List UInt8} {m m' : Instance}
    (h : Ample (fun fuel => lib.readField (lib.decodeUpTo fuel) c p w) m payload m') :
    lib.Reads c m (Wire.key p.number w ++ payload) m' := by
  intro fuel hf
  obtain ⟨hmod, hdiv, hrest, hcast⟩ := key_parts low high hw
  refine (ofRead_takes (Reader.uint32_takes (Wire.key_grammar low high hw))).bind ?_
  rw [hmod, hdiv, hrest, hcast, hfound]
  rw [List.length_append] at hf
  exact h fuel (by omega)

theorem Agrees.nonneg (ha : Agrees writer f p) : 0 ≤ p.number := Int.le_trans (by decide) ha.low

/-- A record of a kept field is read by its codec. -/
theorem Keeps.reads (hk : Keeps c f p) (ha : Agrees writer f p) {w : Nat} (hw : w < 8) {payload : List UInt8}
    {m m' : Instance} (h : Ample (fun fuel => lib.readField (lib.decodeUpTo fuel) c p w) m payload m') :
    lib.Reads c m (Wire.key p.number w ++ payload) m' :=
  reads_found hk.found ha.nonneg ha.high hw h

/-- Records of a dropped field are passed over. -/
theorem Drops.run (hd : Drops c p) (ha : Agrees writer f p) (m : Instance) :
    ∀ {records : List (Nat × List UInt8)}, (∀ x ∈ records, x.1 < 8 ∧ WireValue x.1 x.2) →
      lib.RunOf c m (recordBytes p.number records) m
  | [], _ => .nil m
  | (w, payload) :: rest, h => by
    obtain ⟨hw, hv⟩ := h (w, payload) (by simp)
    obtain ⟨hmod, hdiv, hrest, hcast⟩ := key_parts ha.nonneg ha.high hw
    have hskip : lib.Reads c m (Wire.key p.number w ++ payload) m := by
      refine .unknown (Wire.key_grammar (w := w) ha.nonneg ha.high hw) ?_ (by rwa [hrest]) m
      rw [hmod, hdiv]
      intro q hq
      rw [hcast]
      exact hd q hq
    exact .cons hskip (Drops.run hd ha m fun x hx => h x (by simp [hx]))

/-! ## Attributes -/

/-- The instances differ at most in one attribute. -/
structure Instance.Only (attr : String) (m m' : Instance) : Prop where
  home : m'.home = m.home
  type : m'.type = m.type
  choices : m'.choices = m.choices
  attrs : ∀ a, a ≠ attr → m'.attrs.lookup a = m.attrs.lookup a

namespace Instance.Only

variable {attr : String} {m m₁ m₂ : Instance}

theorem refl (attr : String) (m : Instance) : Only attr m m := ⟨rfl, rfl, rfl, fun _ _ => rfl⟩

theorem trans (h₁ : Only attr m m₁) (h₂ : Only attr m₁ m₂) : Only attr m m₂ :=
  ⟨h₂.home.trans h₁.home, h₂.type.trans h₁.type, h₂.choices.trans h₁.choices,
    fun a ha => (h₂.attrs a ha).trans (h₁.attrs a ha)⟩

theorem keep (attr : String) (m : Instance) (v : Value) : Only attr m (m.keep attr v) :=
  ⟨rfl, rfl, rfl, fun a ha => by rw [Instance.keep, Entries.lookup_put, if_neg ha]⟩

end Instance.Only

theorem Instance.lookup_keep (m : Instance) (attr : String) (v : Value) :
    (m.keep attr v).attrs.lookup attr = some v := by
  rw [Instance.keep, Entries.lookup_put, if_pos rfl]

/-- Changing what a plain attribute holds. -/
theorem MessageClass.modify_plain {attr : String} {m : Instance} {change : Value → Except ValueFault Value}
    {v w : Value} (hd : c.descriptor? attr = none) (hv : m.attrs.lookup attr = some v)
    (hw : change v = .ok w) : c.modify m attr change = .ok (m.keep attr w) := by
  simp only [MessageClass.modify, MessageClass.get, hd, hv]
  refine bind_ok_iff.mpr ⟨v, rfl, ?_⟩
  rw [hw]
  rfl

/-! ## Items and entries -/

/-- An item is added to the list that the attribute holds. -/
theorem readItem_takes {xs : List Value} {m : Instance} {v v' : Value} {payload : List UInt8}
    (hread : p.read = some p.element) (hd : c.descriptor? p.target = none) (hm : m.attrs.lookup p.target = some (.list xs))
    (hc : Carries lib p.element v payload v') :
    Ample (fun fuel => lib.readItem (lib.decodeUpTo fuel) c p) m payload
      (m.keep p.target (.list (xs ++ [v']))) := by
  intro fuel hf
  have hget : c.get m p.target = .ok (.list xs) := by simp only [MessageClass.get, hd, hm]
  have hmodify : c.modify m p.target v'.append = .ok (m.keep p.target (.list (xs ++ [v']))) :=
    MessageClass.modify_plain hd hm rfl
  have hstep := (hc.takes fuel hf).bind_nil (f := fun v => ofExcept (c.modify m p.target v.append))
    (by rw [hmodify]; exact ofExcept_takes _)
  simp only [Library.readItem, hget, Library.readPart_eq hread]
  exact hstep

/-- The values that payloads are read as, which are equal to those that were written. -/
theorem carried {e : Element} {items : List Value} {payloads : List (List UInt8)}
    (h : List.Forall₂ (fun v bs => ∃ v', Carries lib e v bs v') items payloads) :
    ∃ vs, List.Forall₂ (fun v' bs => ∃ v, Carries lib e v bs v') vs payloads ∧
      List.Forall₂ lib.Equals vs items := by
  induction h with
  | nil => exact ⟨[], .nil, .nil⟩
  | cons hv _ ih =>
    obtain ⟨v', hv⟩ := hv
    obtain ⟨vs, hcarries, hequals⟩ := ih
    exact ⟨v' :: vs, .cons ⟨_, hv⟩ hcarries, .cons hv.equals hequals⟩

/-- A run of steps that each add an item to the list in an attribute. -/
theorem run_items {T : Instance → List UInt8 → Instance → Prop} (frame : List UInt8 → List UInt8)
    (hstep : ∀ {m xs v bs v'}, m.attrs.lookup p.target = some (.list xs) → Carries lib p.element v bs v' →
      T m (frame bs) (m.keep p.target (.list (xs ++ [v'])))) {vs : List Value} {payloads : List (List UInt8)}
    (h : List.Forall₂ (fun v' bs => ∃ v, Carries lib p.element v bs v') vs payloads) :
    ∀ {m : Instance} {xs : List Value}, m.attrs.lookup p.target = some (.list xs) →
      ∃ m', Run T m (payloads.flatMap frame) m' ∧ m.Only p.target m' ∧
        m'.attrs.lookup p.target = some (.list (xs ++ vs)) := by
  induction h with
  | nil =>
    intro m xs hm
    exact ⟨m, .nil m, .refl _ m, by rw [List.append_nil]; exact hm⟩
  | @cons v' _ vs _ hv _ ih =>
    intro m xs hm
    obtain ⟨v, hv⟩ := hv
    obtain ⟨m', hrun, honly, hlook⟩ := ih (m.lookup_keep p.target (.list (xs ++ [v'])))
    refine ⟨m', ?_, (Instance.Only.keep _ m _).trans honly, ?_⟩
    · rw [List.flatMap_cons]
      exact .cons (hstep hm hv) hrun
    · rw [hlook, List.append_assoc]
      rfl

/-- The tag of one of the two parts of a map entry. -/
theorem entryTag_takes {n w : Nat} (hn : n = 1 ∨ n = 2) (hw : w < 8) :
    ∃ tag, Takes (ofRead Reader.uint32) (Wire.key n w) tag ∧ tag / 8 = n := by
  refine ⟨_, ofRead_takes (Reader.uint32_takes (Wire.key_grammar (by omega) (by omega) hw)), ?_⟩
  simp only [Nat.pow_eq]
  omega

theorem readEntryPart_key {key : Scalar} {ks : List UInt8} {k : Value}
    (ht : Takes (Reader.scalar key) ks k) (entry : MapEntry) :
    Ample (fun fuel => lib.readEntryPart (lib.decodeUpTo fuel) key p) entry
      (Wire.key 1 key.wireType.number ++ ks) { entry with key := k } := by
  intro fuel _
  obtain ⟨tag, htag, hn⟩ := entryTag_takes (n := 1) (.inl rfl)
    (Element.scalar key).wireType_lt
  refine htag.bind ?_
  rw [if_pos hn]
  exact (ofRead_takes ht).map

theorem readEntryPart_value (hread : p.read = some p.element) {key : Scalar} {vs : List UInt8} {v' : Value}
    (ht : ∀ fuel, vs.length ≤ fuel → Takes (lib.readElement (lib.decodeUpTo fuel) p.element) vs v') (entry : MapEntry) :
    Ample (fun fuel => lib.readEntryPart (lib.decodeUpTo fuel) key p) entry
      (Wire.key 2 p.element.wireType.number ++ vs) { entry with value := v' } := by
  intro fuel hf
  obtain ⟨tag, htag, hn⟩ := entryTag_takes (n := 2) (.inr rfl)
    p.element.wireType_lt
  rw [List.length_append] at hf
  refine htag.bind ?_
  rw [if_neg (by omega), if_pos hn, Library.readPart_eq hread]
  exact (ht fuel (by omega)).map

/-- The parts of an entry are read as its key and its value. -/
theorem run_entry (hread : p.read = some p.element) {key : Scalar} {ks vs : List UInt8} {k v' : Value}
    (hk : Takes (Reader.scalar key) ks k)
    (hv : ∀ fuel, vs.length ≤ fuel → Takes (lib.readElement (lib.decodeUpTo fuel) p.element) vs v') (entry : MapEntry) :
    Run (Ample fun fuel => lib.readEntryPart (lib.decodeUpTo fuel) key p) entry
      (Wire.key 1 key.wireType.number ++ ks ++ (Wire.key 2 p.element.wireType.number ++ vs)) ⟨k, v'⟩ :=
  .cons (readEntryPart_key hk _) (.one (readEntryPart_value hread hv _))

/-- An entry is put into the mapping that the attribute holds. -/
theorem readEntry_takes {key : Scalar} {es : List (Value × Value)} {m : Instance} {x : Value × Value} {v' : Value}
    {payload : List UInt8} (hread : p.read = some p.element) (hd : c.descriptor? p.target = none)
    (hm : m.attrs.lookup p.target = some (.dict es)) (hc : CarriesEntry lib key p.element x payload v') :
    Ample (fun fuel => lib.readEntry (lib.decodeUpTo fuel) c p key) m (Wire.bytes payload)
      (m.keep p.target (.dict (Entries.put Value.sameKey x.1 v' es))) := by
  intro fuel hf
  obtain ⟨ks, vs, rfl, hkey, hvalue⟩ := hc.parts
  obtain ⟨v₀, hmissing⟩ := hvalue.missing
  obtain ⟨hlen, hmod⟩ := Wire.length_grammar hc.short
  have hisKey : x.1.isKey = true := by
    have := hc.flat
    cases hx : x.1 <;> rw [hx] at this <;> first | rfl | cases this
  have hmodify : c.modify m p.target (Value.putAt x.1 v') =
      .ok (m.keep p.target (.dict (Entries.put Value.sameKey x.1 v' es))) :=
    MessageClass.modify_plain hd hm (by simp only [Value.putAt, hisKey, if_true])
  have hsteps := (run_entry hread hkey hvalue.takes ⟨key.zero, v₀⟩).steps
    (Ample.ne_nil fun _ => Library.readEntryPart_advances _ key p)
  rw [Wire.bytes, List.length_append] at hf
  have hloop := (hsteps.upTo (fun _ => Library.readEntryPart_advances _ key p)
    (by omega : _ ≤ fuel)).bind_nil
    (g := fun entry => ofExcept (c.modify m p.target (Value.putAt entry.key entry.value)))
    (by rw [hmodify]; exact ofExcept_takes _)
  simp only [Library.readEntry, Library.missingPart_eq hread, hmissing]
  refine runEnd_takes hlen ?_
  rw [← hmod]
  exact hloop

theorem put_of_distinct {k v : Value} : ∀ {es : List (Value × Value)}, (∀ e ∈ es, e.1.sameKey k = false) →
    Entries.put Value.sameKey k v es = es ++ [(k, v)]
  | [], _ => rfl
  | e :: rest, h => by
    have hne : ¬ e.1.sameKey k = true := by simp [h e (by simp)]
    rw [Entries.put, if_neg hne, put_of_distinct fun e' he' => h e' (by simp [he']), List.cons_append]

/-- Entries with distinct keys are added to the mapping one after the other. -/
theorem run_entries {T : Instance → List UInt8 → Instance → Prop} (frame : List UInt8 → List UInt8)
    {key : Scalar} (hstep : ∀ {m es x bs v'}, m.attrs.lookup p.target = some (.dict es) →
      CarriesEntry lib key p.element x bs v' →
      T m (frame bs) (m.keep p.target (.dict (Entries.put Value.sameKey x.1 v' es))))
    {entries : List (Value × Value)} {payloads : List (List UInt8)}
    (h : List.Forall₂ (fun x bs => ∃ v', CarriesEntry lib key p.element x bs v') entries payloads) :
    ∀ {m : Instance} {es : List (Value × Value)}, m.attrs.lookup p.target = some (.dict es) →
      entries.Pairwise (fun x y => x.1.sameKey y.1 = false) →
      (∀ e ∈ es, ∀ x ∈ entries, e.1.sameKey x.1 = false) →
      ∃ m' xs, Run T m (payloads.flatMap frame) m' ∧ m.Only p.target m' ∧
        m'.attrs.lookup p.target = some (.dict (es ++ xs)) ∧
        List.Forall₂ (fun x y => x.1 = y.1 ∧ lib.Equals x.2 y.2) xs entries := by
  induction h with
  | nil =>
    intro m es hm _ _
    exact ⟨m, [], .nil m, .refl _ m, by rw [List.append_nil]; exact hm, .nil⟩
  | @cons x bs entries payloads hx _ ih =>
    intro m es hm hdistinct hfresh
    obtain ⟨v', hx⟩ := hx
    obtain ⟨ks, vs, -, -, hvalue⟩ := hx.parts
    rw [List.pairwise_cons] at hdistinct
    have hput : Entries.put Value.sameKey x.1 v' es = es ++ [(x.1, v')] :=
      put_of_distinct fun e he => hfresh e he x (by simp)
    obtain ⟨m', xs, hrun, honly, hlook, hall⟩ := ih
      (m.lookup_keep p.target (.dict (Entries.put Value.sameKey x.1 v' es))) hdistinct.2 fun e he y hy => by
        rw [hput, List.mem_append, List.mem_singleton] at he
        rcases he with he | rfl
        · exact hfresh e he y (by simp [hy])
        · exact hdistinct.1 y hy
    refine ⟨m', (x.1, v') :: xs, ?_, (Instance.Only.keep _ m _).trans honly, ?_,
      .cons ⟨rfl, hvalue.equals⟩ hall⟩
    · rw [List.flatMap_cons]
      exact .cons (hstep hm hx) hrun
    · rw [hlook, hput, List.append_assoc]
      rfl

/-! ## Fields -/

theorem Agrees.newDefault_list (ha : Agrees writer f p) (h : p.arity = .repeated) : f.newDefault = .list [] := by
  have harity := ha.arity
  rw [h] at harity
  simp [Reflection.Field.newDefault, harity.1, harity.2]

theorem Agrees.newDefault_dict (ha : Agrees writer f p) {key : Scalar} (h : p.arity = .map key) :
    f.newDefault = .dict [] := by
  have harity := ha.arity
  rw [h] at harity
  simp [Reflection.Field.newDefault, HasArity.isMap harity.1]

/-- A record of a single field sets its attribute. -/
theorem readField_single {m m' : Instance} {w : Nat} {v v' : Value} {payload : List UInt8}
    (hread : p.read = some p.element) (h : p.arity = .single) (hc : Carries lib p.element v payload v')
    (hset : c.set m p.target v' = .ok m') :
    Ample (fun fuel => lib.readField (lib.decodeUpTo fuel) c p w) m payload m' := by
  intro fuel hf
  simp only [Library.readField, h, Library.readPart_eq hread]
  refine (hc.takes fuel hf).bind_nil ?_
  rw [hset]
  exact ofExcept_takes m'

/-- A packable element has a frame of its own outside a run. -/
theorem Element.wireType_of_packable {e : Element} (h : e.isPackable = true) : e.wireType.number ≠ 2 := by
  cases e with
  | scalar k => cases k <;> first | decide | cases h
  | enum type => exact (by decide : 0 ≠ 2)
  | message type => cases h

/-- A record of a repeated field outside a run adds an item to its list. -/
theorem readField_item (hread : p.read = some p.element) (harity : p.arity = .repeated)
    (hd : c.descriptor? p.target = none) {m : Instance} {xs : List Value} (hm : m.attrs.lookup p.target = some (.list xs)) {v v' : Value} {payload : List UInt8}
    (hc : Carries lib p.element v payload v') :
    Ample (fun fuel => lib.readField (lib.decodeUpTo fuel) c p p.element.wireType.number) m payload
      (m.keep p.target (.list (xs ++ [v']))) := by
  intro fuel hf
  have hloose : (p.element.isPackable && decide (p.element.wireType.number =
      WireType.lengthDelimited.number)) = false := by
    cases hp : p.element.isPackable with
    | false => rfl
    | true => exact decide_eq_false (Element.wireType_of_packable hp)
  simp only [Library.readField, harity, hloose]
  exact readItem_takes hread hd hm hc fuel hf

/-- A run adds its items to the list of a repeated field. -/
theorem readField_run (hread : p.read = some p.element) (harity : p.arity = .repeated)
    (hpackable : p.element.isPackable = true) (hd : c.descriptor? p.target = none) {vs : List Value}
    {payloads : List (List UInt8)} (hshort : payloads.flatten.length < 2 ^ 32)
    (h : List.Forall₂ (fun v' bs => ∃ v, Carries lib p.element v bs v') vs payloads) {m : Instance}
    {xs : List Value} (hm : m.attrs.lookup p.target = some (.list xs)) :
    ∃ m', Ample (fun fuel => lib.readField (lib.decodeUpTo fuel) c p 2) m (Wire.bytes payloads.flatten) m' ∧
      m.Only p.target m' ∧ m'.attrs.lookup p.target = some (.list (xs ++ vs)) := by
  obtain ⟨m', hrun, honly, hlook⟩ := run_items
    (T := Ample fun fuel => lib.readItem (lib.decodeUpTo fuel) c p) id (readItem_takes hread hd) h hm
  refine ⟨m', fun fuel hf => ?_, honly, hlook⟩
  obtain ⟨hlen, hmod⟩ := Wire.length_grammar hshort
  rw [List.flatMap_id] at hrun
  have hsteps := hrun.steps (Ample.ne_nil fun _ => Library.readItem_advances _ c p)
  rw [Wire.bytes, List.length_append] at hf
  have hloop := hsteps.upTo (fun _ => Library.readItem_advances _ c p) (by omega : _ ≤ fuel)
  have hshared : (p.element.isPackable && decide (2 = WireType.lengthDelimited.number)) = true := by
    rw [hpackable]
    rfl
  simp only [Library.readField, harity, hshared, if_true]
  refine runEnd_takes hlen ?_
  rw [← hmod]
  exact hloop

/-- **The records of a kept field leave an equal of its value in its attribute, and change nothing
else.** -/
theorem Sent.received (ha : Agrees writer f p) (hk : Keeps c f p) (hone : f.oneof = none) {v : Value}
    {records : List (Nat × List UInt8)} (h : Sent lib f p v records) {m : Instance}
    (hm : m.attrs.lookup f.attr = some f.newDefault) :
    ∃ m' v', lib.RunOf c m (recordBytes p.number records) m' ∧ m.Only f.attr m' ∧
      m'.attrs.lookup f.attr = some v' ∧ lib.Equals v' v := by
  have hd : c.descriptor? p.target = none := by
    rw [ha.target, hk.descriptor, Reflection.Field.oneofAttr, hone]
    rfl
  rw [← ha.target] at hm ⊢
  cases h with
  | nothing equals => exact ⟨m, f.newDefault, .nil m, .refl _ m, hm, equals⟩
  | @one v v' payload arity carries =>
    have hset : c.set m p.target v' = .ok (m.keep p.target v') := by simp only [MessageClass.set, hd]
    refine ⟨m.keep p.target v', v', ?_, .keep _ m v', m.lookup_keep _ _, carries.equals⟩
    rw [recordBytes, List.flatMap_singleton]
    exact .one (hk.reads ha p.element.wireType_lt (readField_single ha.read arity carries hset))
  | @each items payloads arity carries =>
    rw [ha.newDefault_list arity] at hm
    obtain ⟨vs, hcarries, hequals⟩ := carried carries
    obtain ⟨m', hrun, honly, hlook⟩ := run_items (T := lib.Reads c)
      (fun bs => Wire.key p.number p.element.wireType.number ++ bs)
      (fun hm hc => hk.reads ha p.element.wireType_lt (readField_item ha.read arity hd hm hc)) hcarries hm
    refine ⟨m', .list vs, ?_, honly, hlook, .list hequals⟩
    rw [recordBytes, List.flatMap_map]
    exact hrun
  | @packed items payloads arity packable short carries =>
    rw [ha.newDefault_list arity] at hm
    obtain ⟨vs, hcarries, hequals⟩ := carried carries
    obtain ⟨m', hread, honly, hlook⟩ := readField_run ha.read arity packable hd short hcarries hm
    refine ⟨m', .list vs, ?_, honly, hlook, .list hequals⟩
    rw [recordBytes, List.flatMap_singleton]
    exact .one (hk.reads ha (by decide : 2 < 8) hread)
  | @entries key entries payloads arity distinct carries =>
    rw [ha.newDefault_dict arity] at hm
    obtain ⟨m', xs, hrun, honly, hlook, hall⟩ := run_entries (T := lib.Reads c)
      (fun bs => Wire.key p.number 2 ++ Wire.bytes bs)
      (fun hm hc => hk.reads ha (by decide) fun fuel hf => by
        simp only [Library.readField, arity]
        exact readEntry_takes ha.read hd hm hc fuel hf) carries hm distinct (fun x hx => by cases hx)
    refine ⟨m', .dict xs, ?_, honly, hlook, .dict hall distinct fun y hy => ?_⟩
    · rw [recordBytes, List.flatMap_map]
      exact hrun
    · obtain ⟨bs, -, v', hc⟩ := forall₂_mem carries hy
      exact hc.self

end ProtoBind.Message
