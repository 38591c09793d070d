/-
What a record contributes to a message.

The payload of a record is read as a contribution (`Library.readContribution`): a
value, items or an entry, whatever the instance holds. Reading a field is
reading its contribution and adding it to the instance (`readField_ok_iff`), so a
payload that is taken whole into one instance is taken whole into any other
(`Library.Consumes.gives`).
-/
import ProtoBind.Proofs.Message.Readable

namespace ProtoBind.Message

open Decode
open Schema (Arity)

/-! ## Contributions -/

/-- What a record contributes to its field. -/
inductive Contribution
  | value (v : Value)
  | items (vs : List Value)
  | entry (k v : Value)

namespace Contribution

/-- What a field of the arity is given by a record. -/
def Fits : Arity → Contribution → Prop
  | .single, e => ∃ v, e = .value v ∧ v ≠ .null
  | .repeated, e => ∃ vs, e = .items vs
  | .map _, e => ∃ k v, e = .entry k v ∧ k.isKey = true

/-- What is held after the contribution: a value takes the place of another, items are added to a list and an entry
to a mapping. -/
def into : Contribution → Option Value → Option Value
  | value v, _ => some v
  | items vs, some (.list xs) => some (.list (xs ++ vs))
  | entry k v, some (.dict es) => some (.dict (Entries.put Value.sameKey k v es))
  | _, held => held

end Contribution

/-- The instance with a contribution to a field. -/
def MessageClass.add (c : MessageClass) (p : FieldCodec) (m : Instance) (e : Contribution) : Instance :=
  match c.descriptor? p.target with
  | none =>
    match e.into (m.attrs.lookup p.target) with
    | some v => m.keep p.target v
    | none => m
  | some (.member name group) =>
    match e with
    | .value v => m.choose group name v
    | _ => m
  | some (.group _ _) => m

namespace Library

/-- Reads what a record contributes to a field. -/
def readContribution (lib : Library) (nested : Nested) (p : FieldCodec) (wireType : Nat) : Decode Contribution := do
  match p.arity with
  | .map key =>
    let stop ← runEnd
    let entry : MapEntry := ⟨key.zero, ← ofExcept (lib.missingPart p)⟩
    let entry ← upTo stop (lib.readEntryPart nested key p) entry
    return .entry entry.key entry.value
  | .repeated =>
    if p.element.isPackable && wireType = WireType.lengthDelimited.number then
      return .items (← upTo (← runEnd) (fun vs => do return vs ++ [← lib.readPart nested p]) [])
    else return .items [← lib.readPart nested p]
  | .single => return .value (← lib.readPart nested p)

/-- The payload contributes to the field, wherever it stands. -/
def Gives (lib : Library) (p : FieldCodec) (wireType : Nat) (payload : List UInt8) (e : Contribution) : Prop :=
  ∀ fuel, payload.length ≤ fuel → Takes (lib.readContribution (lib.decodeUpTo fuel) p wireType) payload e

/-- The payload is read as the value of an element, wherever it stands. -/
def Yields (lib : Library) (e : Element) (payload : List UInt8) (v : Value) : Prop :=
  ∀ fuel, payload.length ≤ fuel → Takes (lib.readElement (lib.decodeUpTo fuel) e) payload v

/-- The field's read takes the payload whole, into an instance that suits the class. -/
def Consumes (lib : Library) (c : MessageClass) (p : FieldCodec) (wireType : Nat) (payload : List UInt8) : Prop :=
  ∃ m m', c.Suits m ∧ Ample (fun fuel => lib.readField (lib.decodeUpTo fuel) c p wireType) m payload m'

end Library

variable {lib : Library} {c : MessageClass} {p : FieldCodec} {m m' : Instance} {nested : Nested} {w : Nat}
  {payload : List UInt8} {e : Contribution} {σ τ : Type}

/-! ## Loops -/

/-- Two loops whose steps correspond. -/
theorem stepsUpTo_ok_iff {φ : σ → τ} {step : σ → Decode σ} {step' : τ → Decode τ}
    (h : ∀ s r t r', step' (φ s) r = .ok t r' ↔ ∃ s', step s r = .ok s' r' ∧ t = φ s') {stop : Nat} :
    ∀ {fuel : Nat} {s : σ} {t : τ} {r r' : Reader}, stepsUpTo stop step' fuel (φ s) r = .ok t r' ↔
      ∃ s', stepsUpTo stop step fuel s r = .ok s' r' ∧ t = φ s'
  | 0, s, t, r, r' => by
    constructor
    · rintro ⟨⟩
      exact ⟨s, rfl, rfl⟩
    · rintro ⟨s', ⟨⟩, rfl⟩
      rfl
  | fuel + 1, s, t, r, r' => by
    show (if r.pos < stop then (step' (φ s) >>= fun s => stepsUpTo stop step' fuel s) else pure (φ s) : Decode τ) r =
        _ ↔ ∃ s', (if r.pos < stop then (step s >>= fun s => stepsUpTo stop step fuel s) else pure s : Decode σ) r =
        _ ∧ _
    by_cases hp : r.pos < stop
    · simp only [hp, if_true]
      constructor
      · intro hrun
        obtain ⟨t₁, r₁, h₁, h₂⟩ := bind_eq_ok.mp hrun
        obtain ⟨s₁, hs₁, rfl⟩ := (h s r t₁ r₁).mp h₁
        obtain ⟨s', hs', rfl⟩ := (stepsUpTo_ok_iff h).mp h₂
        exact ⟨s', bind_eq_ok.mpr ⟨s₁, r₁, hs₁, hs'⟩, rfl⟩
      · rintro ⟨s', hrun, rfl⟩
        obtain ⟨s₁, r₁, h₁, h₂⟩ := bind_eq_ok.mp hrun
        exact bind_eq_ok.mpr ⟨φ s₁, r₁, (h s r _ r₁).mpr ⟨s₁, h₁, rfl⟩, (stepsUpTo_ok_iff h).mpr ⟨s', h₂, rfl⟩⟩
    · simp only [hp, if_false]
      constructor
      · rintro ⟨⟩
        exact ⟨s, rfl, rfl⟩
      · rintro ⟨s', ⟨⟩, rfl⟩
        rfl

/-- What every step keeps, the loop keeps. -/
theorem stepsUpTo_keeps {P : σ → Prop} {step : σ → Decode σ}
    (h : ∀ s r s' r', P s → step s r = .ok s' r' → P s') {stop : Nat} :
    ∀ {fuel : Nat} {s s' : σ} {r r' : Reader}, P s → stepsUpTo stop step fuel s r = .ok s' r' → P s'
  | 0, _, _, _, _, hs, hrun => by
    cases hrun
    exact hs
  | fuel + 1, s, s', r, r', hs, hrun => by
    change (if r.pos < stop then (step s >>= fun s => stepsUpTo stop step fuel s) else pure s : Decode σ) r = _ at hrun
    by_cases hp : r.pos < stop
    · simp only [hp, if_true] at hrun
      obtain ⟨s₁, r₁, h₁, h₂⟩ := bind_eq_ok.mp hrun
      exact stepsUpTo_keeps h (h s r s₁ r₁ hs h₁) h₂
    · simp only [hp, if_false] at hrun
      cases hrun
      exact hs

/-! ## Reading a field -/

/-- Messages inside are never null. -/
def Nested.Definite (nested : Nested) : Prop := ∀ type stop r v r', nested type stop r = .ok v r' → v ≠ .null

theorem decodeUpTo_definite (lib : Library) (fuel : Nat) : Nested.Definite (lib.decodeUpTo fuel) := by
  intro type stop r v r' h
  obtain ⟨_, _, m, _, -, -, -, -, rfl⟩ := Library.decodeUpTo_sound (fun fuel _ => Library.decodeUpTo_repeats lib fuel) h
  rintro ⟨⟩

theorem ofValue_ne_null (e : EnumClass) (n : Int) : e.ofValue (.int n) ≠ .null := by
  unfold EnumClass.ofValue
  split <;> rintro ⟨⟩

theorem readElement_ne_null (hn : Nested.Definite nested) {e : Element} {r r' : Reader} {v : Value}
    (h : lib.readElement nested e r = .ok v r') : v ≠ .null := by
  cases e with
  | scalar k =>
    obtain ⟨bs, -, ht⟩ := Reader.scalar_local k _ _ _ (ofRead_sound h)
    exact scalar_ne_null (ht bs.length (Nat.le_refl _))
  | enum type =>
    obtain ⟨n, -, rfl⟩ := map_eq_ok.mp h
    split
    · exact ofValue_ne_null _ n
    · rintro ⟨⟩
  | message type =>
    obtain ⟨stop, r₁, -, h⟩ := bind_eq_ok.mp h
    exact hn type stop r₁ v r' h

theorem readPart_ne_null (hn : Nested.Definite nested) {r r' : Reader} {v : Value}
    (h : lib.readPart nested p r = .ok v r') : v ≠ .null := by
  cases hread : p.read with
  | some e =>
    rw [Library.readPart, hread] at h
    exact readElement_ne_null hn h
  | none =>
    -- What stands for no class of the kind is never read.
    cases he : p.element with
    | message type =>
      rw [Library.readPart, hread, he] at h
      cases h
    | _ =>
      rw [Library.readPart, hread, he] at h
      obtain ⟨_, _, -, h⟩ := bind_eq_ok.mp h
      cases h

theorem readEntryPart_isKey {key : Scalar} {entry entry' : MapEntry} {r r' : Reader}
    (hkey : entry.key.isKey = true) (h : lib.readEntryPart nested key p entry r = .ok entry' r') :
    entry'.key.isKey = true := by
  obtain ⟨tag, r₁, -, h⟩ := bind_eq_ok.mp h
  split at h
  · obtain ⟨k, hk, rfl⟩ := map_eq_ok.mp h
    exact scalar_isKey (ofRead_sound hk)
  · split at h
    · obtain ⟨v, -, rfl⟩ := map_eq_ok.mp h
      exact hkey
    · obtain ⟨_, r₂, -, h⟩ := bind_eq_ok.mp h
      cases h
      exact hkey

/-- **What a record contributes is what its field is given.** -/
theorem readContribution_fits (hn : Nested.Definite nested) {r r' : Reader} (h : lib.readContribution nested p w r = .ok e r') :
    e.Fits p.arity := by
  simp only [Library.readContribution] at h
  cases harity : p.arity with
  | single =>
    simp only [harity] at h
    obtain ⟨v, hv, rfl⟩ := map_eq_ok.mp h
    exact ⟨v, rfl, readPart_ne_null hn hv⟩
  | repeated =>
    simp only [harity] at h
    split at h
    · obtain ⟨stop, r₁, -, h⟩ := bind_eq_ok.mp h
      obtain ⟨vs, -, rfl⟩ := map_eq_ok.mp h
      exact ⟨vs, rfl⟩
    · obtain ⟨v, -, rfl⟩ := map_eq_ok.mp h
      exact ⟨[v], rfl⟩
  | map key =>
    simp only [harity] at h
    obtain ⟨stop, r₁, -, h⟩ := bind_eq_ok.mp h
    obtain ⟨v, r₂, -, h⟩ := bind_eq_ok.mp h
    obtain ⟨entry, hentry, rfl⟩ := map_eq_ok.mp h
    have hzero : key.zero.isKey = true := by cases key <;> rfl
    exact ⟨_, _, rfl, stepsUpTo_keeps (P := fun entry : MapEntry => entry.key.isKey = true)
      (fun _ _ _ _ => readEntryPart_isKey) hzero hentry⟩

theorem Instance.keep_self {attr : String} {v : Value} (h : m.attrs.lookup attr = some v) : m.keep attr v = m := by
  rw [keep, Entries.put_self h]

theorem Instance.keep_keep {attr : String} {v w : Value} : (m.keep attr v).keep attr w = m.keep attr w := by
  rw [keep, keep, Entries.put_put]
  rfl

theorem readItem_ok_iff (hd : c.descriptor? p.target = none) {xs : List Value}
    (hm : m.attrs.lookup p.target = some (.list xs)) {r r' : Reader} : lib.readItem nested c p m r = .ok m' r' ↔
      ∃ v, lib.readPart nested p r = .ok v r' ∧ m' = m.keep p.target (.list (xs ++ [v])) := by
  have hget : c.get m p.target = .ok (.list xs) := by simp only [MessageClass.get, hd, hm]
  have hstep : lib.readItem nested c p m =
      (do return m.keep p.target (.list (xs ++ [← lib.readPart nested p]))) := by
    simp only [Library.readItem, hget]
    show (lib.readPart nested p >>= fun v => _) = _
    congr 1
    funext v
    rw [MessageClass.modify_plain hd hm (w := .list (xs ++ [v])) rfl]
    rfl
  rw [hstep, map_eq_ok]

theorem add_value (hc : Readable lib c) (hp : p ∈ c.codecs) (m : Instance) {v : Value} (hv : v ≠ .null) :
    c.set m p.target v = .ok (c.add p m (.value v)) := by
  cases hd : c.descriptor? p.target with
  | none => simp only [MessageClass.set, MessageClass.add, hd, Contribution.into]
  | some d =>
    cases d with
    | member name group => simp only [MessageClass.set, MessageClass.add, hd, setMember_value hv]
    | group name members => exact absurd hd (hc.settable p hp name members)

theorem add_items (hd : c.descriptor? p.target = none) {xs : List Value}
    (hm : m.attrs.lookup p.target = some (.list xs)) (vs : List Value) :
    c.add p m (.items vs) = m.keep p.target (.list (xs ++ vs)) := by
  simp only [MessageClass.add, hd, hm, Contribution.into]

theorem add_entry (hd : c.descriptor? p.target = none) {es : List (Value × Value)}
    (hm : m.attrs.lookup p.target = some (.dict es)) (k v : Value) :
    c.add p m (.entry k v) = m.keep p.target (.dict (Entries.put Value.sameKey k v es)) := by
  simp only [MessageClass.add, hd, hm, Contribution.into]

/-- A run of items is added to the list that is held. -/
theorem readRun_ok_iff (hd : c.descriptor? p.target = none) {xs : List Value}
    (hm : m.attrs.lookup p.target = some (.list xs)) {stop : Nat} {r r' : Reader} :
    upTo stop (lib.readItem nested c p) m r = .ok m' r' ↔
      ∃ vs, upTo stop (fun vs => do return vs ++ [← lib.readPart nested p]) [] r = .ok vs r' ∧
        m' = m.keep p.target (.list (xs ++ vs)) := by
  have hstart : m.keep p.target (.list (xs ++ [])) = m := Instance.keep_self (by rw [hm, List.append_nil])
  have hstep : ∀ (vs : List Value) (r : Reader) (t : Instance) (r' : Reader),
      lib.readItem nested c p (m.keep p.target (.list (xs ++ vs))) r = .ok t r' ↔
        ∃ vs', (do return vs ++ [← lib.readPart nested p] : Decode (List Value)) r = .ok vs' r' ∧
          t = m.keep p.target (.list (xs ++ vs')) := by
    intro vs r t r'
    rw [readItem_ok_iff hd (Instance.lookup_keep m p.target (.list (xs ++ vs)))]
    simp only [map_eq_ok, Instance.keep_keep, List.append_assoc]
    constructor
    · rintro ⟨v, hv, rfl⟩
      exact ⟨_, ⟨v, hv, rfl⟩, rfl⟩
    · rintro ⟨_, ⟨v, hv, rfl⟩, rfl⟩
      exact ⟨v, hv, rfl⟩
  have hloop := @stepsUpTo_ok_iff _ _ _ _ _ hstep stop (r.rest.length + 1) [] m' r r'
  rwa [hstart] at hloop

/-- A single value is read and set. -/
theorem readField_single_iff (hc : Readable lib c) (hp : p ∈ c.codecs) (hn : Nested.Definite nested)
    (harity : p.arity = .single) {r r' : Reader} : lib.readField nested c p w m r = .ok m' r' ↔
      ∃ e, lib.readContribution nested p w r = .ok e r' ∧ m' = c.add p m e := by
  simp only [Library.readField, Library.readContribution, harity, map_eq_ok]
  constructor
  · intro h
    obtain ⟨v, r₁, hv, h⟩ := bind_eq_ok.mp h
    rw [add_value hc hp m (readPart_ne_null hn hv)] at h
    cases h
    exact ⟨_, ⟨v, hv, rfl⟩, rfl⟩
  · rintro ⟨_, ⟨v, hv, rfl⟩, rfl⟩
    refine bind_eq_ok.mpr ⟨v, r', hv, ?_⟩
    rw [add_value hc hp m (readPart_ne_null hn hv)]
    rfl

/-- A run of items is read and added to the list, or one item. -/
theorem readField_repeated_iff (hd : c.descriptor? p.target = none) (harity : p.arity = .repeated) {xs : List Value}
    (hxs : m.attrs.lookup p.target = some (.list xs)) {r r' : Reader} : lib.readField nested c p w m r = .ok m' r' ↔
      ∃ e, lib.readContribution nested p w r = .ok e r' ∧ m' = c.add p m e := by
  simp only [Library.readField, Library.readContribution, harity]
  split
  · constructor
    · intro h
      obtain ⟨stop, r₁, hstop, h⟩ := bind_eq_ok.mp h
      obtain ⟨vs, hvs, rfl⟩ := (readRun_ok_iff hd hxs).mp h
      exact ⟨.items vs, bind_eq_ok.mpr ⟨stop, r₁, hstop, map_eq_ok.mpr ⟨vs, hvs, rfl⟩⟩, (add_items hd hxs vs).symm⟩
    · rintro ⟨e, h, rfl⟩
      obtain ⟨stop, r₁, hstop, h⟩ := bind_eq_ok.mp h
      obtain ⟨vs, hvs, rfl⟩ := map_eq_ok.mp h
      exact bind_eq_ok.mpr ⟨stop, r₁, hstop, (readRun_ok_iff hd hxs).mpr ⟨vs, hvs, add_items hd hxs vs⟩⟩
  · rw [readItem_ok_iff hd hxs]
    simp only [map_eq_ok]
    constructor
    · rintro ⟨v, hv, rfl⟩
      exact ⟨_, ⟨v, hv, rfl⟩, (add_items hd hxs [v]).symm⟩
    · rintro ⟨_, ⟨v, hv, rfl⟩, rfl⟩
      exact ⟨v, hv, add_items hd hxs [v]⟩

/-- An entry is put into the map under the key that was read. -/
theorem modify_entry (hd : c.descriptor? p.target = none) {es : List (Value × Value)}
    (hes : m.attrs.lookup p.target = some (.dict es)) {key : Scalar} {v₀ : Value} {stop : Nat} {r r' : Reader}
    {entry : MapEntry} (h : upTo stop (lib.readEntryPart nested key p) ⟨key.zero, v₀⟩ r = .ok entry r') :
    c.modify m p.target (Value.putAt entry.key entry.value) = .ok (c.add p m (.entry entry.key entry.value)) := by
  have hzero : key.zero.isKey = true := by cases key <;> rfl
  have hkey := stepsUpTo_keeps (P := fun entry : MapEntry => entry.key.isKey = true)
    (fun _ _ _ _ => readEntryPart_isKey) hzero h
  rw [add_entry hd hes]
  exact MessageClass.modify_plain hd hes (by simp only [Value.putAt, hkey, if_true])

/-- An entry is read and put into the map. -/
theorem readField_map_iff (hd : c.descriptor? p.target = none) {key : Scalar} (harity : p.arity = .map key)
    {es : List (Value × Value)} (hes : m.attrs.lookup p.target = some (.dict es)) {v₀ : Value}
    (hv₀ : lib.missingPart p = .ok v₀) {r r' : Reader} : lib.readField nested c p w m r = .ok m' r' ↔
      ∃ e, lib.readContribution nested p w r = .ok e r' ∧ m' = c.add p m e := by
  simp only [Library.readField, Library.readContribution, Library.readEntry, harity, hv₀]
  constructor
  · intro h
    obtain ⟨stop, r₁, hstop, h⟩ := bind_eq_ok.mp h
    obtain ⟨v, r₂, ⟨⟩, h⟩ := bind_eq_ok.mp h
    obtain ⟨entry, r₃, hentry, h⟩ := bind_eq_ok.mp h
    rw [modify_entry hd hes hentry] at h
    cases h
    exact ⟨.entry entry.key entry.value, bind_eq_ok.mpr ⟨stop, r₁, hstop, bind_eq_ok.mpr ⟨v₀, r₁, rfl,
      map_eq_ok.mpr ⟨entry, hentry, rfl⟩⟩⟩, rfl⟩
  · rintro ⟨e, h, rfl⟩
    obtain ⟨stop, r₁, hstop, h⟩ := bind_eq_ok.mp h
    obtain ⟨v, r₂, ⟨⟩, h⟩ := bind_eq_ok.mp h
    obtain ⟨entry, hentry, rfl⟩ := map_eq_ok.mp h
    refine bind_eq_ok.mpr ⟨stop, r₁, hstop, bind_eq_ok.mpr ⟨v₀, r₁, rfl, bind_eq_ok.mpr ⟨entry, r', hentry, ?_⟩⟩⟩
    rw [modify_entry hd hes hentry]
    rfl

/-- **Reading a field is reading what a record contributes, and adding it**, into any instance that suits the class. -/
theorem readField_ok_iff (hlib : lib.IsReadable) (hc : Readable lib c) (hp : p ∈ c.codecs) (hm : c.Suits m)
    (hn : Nested.Definite nested) {r r' : Reader} : lib.readField nested c p w m r = .ok m' r' ↔
      ∃ e, lib.readContribution nested p w r = .ok e r' ∧ m' = c.add p m e := by
  have hfits := hm p hp
  cases harity : p.arity with
  | single => exact readField_single_iff hc hp hn harity
  | repeated =>
    rw [harity] at hfits
    obtain ⟨xs, hxs⟩ := hfits
    exact readField_repeated_iff (hc.plain p hp (by rw [harity]; nofun)) harity hxs
  | map key =>
    rw [harity] at hfits
    obtain ⟨es, hes⟩ := hfits
    obtain ⟨v₀, hv₀⟩ := hc.missingPart hlib hp
    exact readField_map_iff (hc.plain p hp (by rw [harity]; nofun)) harity hes hv₀

/-! ## Payloads -/

namespace Library

theorem readContribution_repeats (hn : lib.NestedRepeats nested) (p : FieldCodec) (w : Nat) :
    Repeats (fun fuel => lib.readContribution (lib.decodeUpTo fuel) p w) (lib.readContribution nested p w) := by
  simp only [readContribution]
  cases p.arity with
  | map key =>
    refine runEnd_repeats ?_
    cases lib.missingPart p with
    | error e => exact RepeatsUpTo.throw e
    | ok v =>
      exact (upTo_repeats (readEntryPart_repeats hn key p)
        (fun fuel => readEntryPart_advances _ key p) ⟨key.zero, v⟩).bind fun entry => Repeats.pure _
  | repeated =>
    refine Repeats.ite (runEnd_repeats ?_) (readPart_repeats hn p).map
    have hitem (vs : List Value) := (readPart_repeats hn p).map (f := fun v => vs ++ [v])
    exact (upTo_repeats hitem (fun fuel vs => (readPart_advances _ p).bind) []).bind fun vs => Repeats.pure _
  | single => exact (readPart_repeats hn p).map

/-- The value of a single field. -/
theorem Yields.value (hread : p.read = some p.element) (harity : p.arity = .single) {v : Value}
    (h : lib.Yields p.element payload v) (w : Nat) : lib.Gives p w payload (.value v) := by
  intro fuel hf
  simp only [readContribution, harity, readPart_eq hread]
  exact (h fuel hf).map

/-- An item of a repeated field, outside a run. -/
theorem Yields.item (hread : p.read = some p.element) (harity : p.arity = .repeated) {v : Value}
    (h : lib.Yields p.element payload v) : lib.Gives p p.element.wireType.number payload (.items [v]) := by
  intro fuel hf
  have hloose : (p.element.isPackable && decide (p.element.wireType.number = WireType.lengthDelimited.number)) =
      false := by
    cases hp : p.element.isPackable with
    | false => rfl
    | true => exact decide_eq_false (Element.wireType_of_packable hp)
  simp only [readContribution, harity, hloose, readPart_eq hread]
  exact (h fuel hf).map

/-- The values of a run, one behind the other. -/
theorem run_yields {e : Element} {vs : List Value} {payloads : List (List UInt8)}
    (h : List.Forall₂ (fun v bs => lib.Yields e bs v) vs payloads) : ∀ start : List Value,
    Run (Ample fun fuel (vs : List Value) => do return vs ++ [← lib.readElement (lib.decodeUpTo fuel) e]) start
      payloads.flatten (start ++ vs) := by
  induction h with
  | nil =>
    intro start
    rw [List.append_nil]
    exact .nil start
  | @cons v bs vs payloads hv _ ih =>
    intro start
    have hrest := ih (start ++ [v])
    rw [List.append_assoc, List.singleton_append] at hrest
    exact .cons (fun fuel hf => (hv fuel hf).map) hrest

/-- The items of a repeated field in one run. -/
theorem Gives.run (hread : p.read = some p.element) (harity : p.arity = .repeated)
    (hpackable : p.element.isPackable = true) {vs : List Value} {payloads : List (List UInt8)}
    (hshort : payloads.flatten.length < 2 ^ 32) (h : List.Forall₂ (fun v bs => lib.Yields p.element bs v) vs payloads) :
    lib.Gives p 2 (Wire.bytes payloads.flatten) (.items vs) := by
  intro fuel hf
  obtain ⟨hlen, hmod⟩ := Wire.length_grammar hshort
  have hadvances (fuel : Nat) (vs : List Value) : Advances (ε := Fault)
      (do return vs ++ [← lib.readElement (lib.decodeUpTo fuel) p.element]) := (readElement_advances _ p.element).bind
  have hsteps := (run_yields h []).steps (Ample.ne_nil hadvances)
  rw [Wire.bytes, List.length_append] at hf
  have hloop := (hsteps.upTo hadvances (by omega : _ ≤ fuel)).bind_nil (g := fun vs => pure (Contribution.items vs))
    (Takes.pure _)
  have hshared : (p.element.isPackable && decide (2 = WireType.lengthDelimited.number)) = true := by
    rw [hpackable]
    rfl
  simp only [readContribution, harity, hshared, if_true, readPart_eq hread]
  refine runEnd_takes hlen ?_
  rw [← hmod]
  exact hloop

/-- An entry of a map. -/
theorem Yields.entry (hread : p.read = some p.element) {key : Scalar} (harity : p.arity = .map key) {v₀ : Value}
    (hmissing : lib.missingPart p = .ok v₀) {ks vs : List UInt8} {k v : Value}
    (hk : Takes (Reader.scalar key) ks k) (hv : lib.Yields p.element vs v)
    (hshort : (Wire.key 1 key.wireType.number ++ ks ++ (Wire.key 2 p.element.wireType.number ++ vs)).length < 2 ^ 32) :
    lib.Gives p 2 (Wire.bytes (Wire.key 1 key.wireType.number ++ ks ++ (Wire.key 2 p.element.wireType.number ++ vs)))
      (.entry k v) := by
  intro fuel hf
  obtain ⟨hlen, hmod⟩ := Wire.length_grammar hshort
  have hsteps := (run_entry hread hk hv ⟨key.zero, v₀⟩).steps (Ample.ne_nil fun _ => readEntryPart_advances _ key p)
  rw [Wire.bytes, List.length_append] at hf
  have hloop := (hsteps.upTo (fun _ => readEntryPart_advances _ key p) (by omega : _ ≤ fuel)).bind_nil
    (g := fun entry => pure (Contribution.entry entry.key entry.value)) (Takes.pure _)
  simp only [readContribution, harity, hmissing]
  refine runEnd_takes hlen ?_
  rw [← hmod]
  exact hloop

theorem Gives.fits (h : lib.Gives p w payload e) : e.Fits p.arity :=
  readContribution_fits (decodeUpTo_definite lib _) (h _ (Nat.le_refl _) 0 [])

/-- What a payload contributes is determined by the payload. -/
theorem Gives.unique {e' : Contribution} (h : lib.Gives p w payload e) (h' : lib.Gives p w payload e') : e = e' :=
  ((h _ (Nat.le_refl _)).unique (h' _ (Nat.le_refl _)) (t := []) rfl).2.1

/-- A payload that contributes to a field is read into every instance that suits the class. -/
theorem Gives.readField (hlib : lib.IsReadable) (hc : Readable lib c) (hp : p ∈ c.codecs) (hm : c.Suits m)
    (h : lib.Gives p w payload e) :
    Ample (fun fuel => lib.readField (lib.decodeUpTo fuel) c p w) m payload (c.add p m e) := fun fuel hf pos tail =>
  (readField_ok_iff hlib hc hp hm (decodeUpTo_definite lib fuel)).mpr ⟨e, h fuel hf pos tail, rfl⟩

/-- **A payload that is taken whole contributes to its field**, whatever it was read into. -/
theorem Consumes.gives (hlib : lib.IsReadable) (hc : Readable lib c) (hp : p ∈ c.codecs)
    (h : lib.Consumes c p w payload) : ∃ e, lib.Gives p w payload e := by
  obtain ⟨m, m', hm, hreads⟩ := h
  have hread := hreads _ (Nat.le_refl _) 0 []
  obtain ⟨e, he, -⟩ := (readField_ok_iff hlib hc hp hm (decodeUpTo_definite lib _)).mp hread
  obtain ⟨bs, ⟨hrest, -⟩, htakes⟩ := readContribution_repeats (decodeUpTo_repeats lib _) p w _ _ _ he
  obtain rfl : payload = bs := by simpa using hrest
  exact ⟨e, htakes⟩

end Library

/-! ## Adding -/

/-- A contribution to a plain attribute goes to what it holds. -/
theorem lookup_add (hd : c.descriptor? p.target = none) (m : Instance) (e : Contribution) (attr : String) :
    (c.add p m e).attrs.lookup attr =
      if attr = p.target then e.into (m.attrs.lookup p.target) else m.attrs.lookup attr := by
  simp only [MessageClass.add, hd]
  cases hinto : e.into (m.attrs.lookup p.target) with
  | some v => exact Entries.lookup_put
  | none =>
    dsimp only
    split
    next he =>
      subst he
      cases hm : m.attrs.lookup p.target with
      | none => rfl
      | some v =>
        rw [hm] at hinto
        unfold Contribution.into at hinto
        split at hinto <;> cases hinto
    next => rfl

/-- A value for a member of a group sets the member. -/
theorem add_member {name group : String} (hd : c.descriptor? p.target = some (.member name group)) (m : Instance)
    (v : Value) : c.add p m (.value v) = m.choose group name v := by
  simp only [MessageClass.add, hd]

theorem add_home (c : MessageClass) (p : FieldCodec) (m : Instance) (e : Contribution) :
    (c.add p m e).home = m.home ∧ (c.add p m e).type = m.type := by
  unfold MessageClass.add
  split <;> [skip; skip; exact ⟨rfl, rfl⟩] <;> split <;> exact ⟨rfl, rfl⟩

/-- A contribution to a plain attribute changes no group. -/
theorem choices_add (hd : c.descriptor? p.target = none) (m : Instance) (e : Contribution) :
    (c.add p m e).choices = m.choices := by
  simp only [MessageClass.add, hd]
  split <;> rfl

/-- A contribution to a member of a group changes no attribute. -/
theorem attrs_add (hd : c.descriptor? p.target ≠ none) (m : Instance) (e : Contribution) :
    (c.add p m e).attrs = m.attrs := by
  unfold MessageClass.add
  split
  next h => exact absurd h hd
  next => split <;> rfl
  next => rfl

theorem Contribution.Fits.into {a : Arity} (he : e.Fits a) {held : Option Value} (h : Message.Fits a held) :
    Message.Fits a (e.into held) := by
  cases a with
  | single => trivial
  | repeated =>
    obtain ⟨vs, rfl⟩ := he
    obtain ⟨xs, rfl⟩ := h
    exact ⟨xs ++ vs, rfl⟩
  | map key =>
    obtain ⟨k, v, rfl, -⟩ := he
    obtain ⟨es, rfl⟩ := h
    exact ⟨_, rfl⟩

/-- Whatever is contributed, every field can still be read into the instance. -/
theorem MessageClass.Suits.add (hm : c.Suits m) (hc : Readable lib c) (hp : p ∈ c.codecs) (he : e.Fits p.arity) :
    c.Suits (c.add p m e) := by
  intro q hq
  cases hd : c.descriptor? p.target with
  | some d =>
    rw [attrs_add (by rw [hd]; nofun)]
    exact hm q hq
  | none =>
    rw [lookup_add hd]
    split
    next hsame =>
      obtain rfl := List.inj_on_of_nodup_map hc.targets hq hp hsame
      exact he.into (hm q hq)
    next => exact hm q hq

end ProtoBind.Message
