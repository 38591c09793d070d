/-
Instances that can be written.

An instance whose fields hold values that can be written, or their defaults, is
written as records of its class, with one of a member just if the member is set
(`InstanceWritable.written`). Records merge, so what is read back has the same
members set in its groups (`Library.Sends.received`), at any depth of nesting
(`Library.WritableUpTo.delivered`).
-/
import ProtoBind.Proofs.Message.Writable

namespace ProtoBind.Message

variable {lib : Library} {body : Instance → Except Fault (List UInt8)} {nested : Instance → Prop} {c : MessageClass}
  {m : Instance} {f : Reflection.Field} {p : FieldCodec} {v : Value}

/-! ## Instances -/

/-- An instance of a class that can be written: each field outside the groups holds its default or a value that can be
written, and each group that is set has a declared member with a value that can be. -/
structure InstanceWritable (lib : Library) (nested : Instance → Prop) (c : MessageClass) (m : Instance) : Prop where
  regular : ∀ f ∈ c.fields, f.oneof = none → ∃ v, m.attrs.lookup f.attr = some v ∧
    (v = f.newDefault ∨ FieldTyped Scalar.Writable lib nested f v)
  wellSet : WellSet c m
  chosen : ∀ f ∈ c.fields, ∀ group v, Chosen m f group v →
    ∃ e, lib.elementOf? f = some e ∧ ElementTyped Scalar.Writable nested e v

/-- The records of an instance: well-formed ones, and one of a member of a group just if the member is set. -/
structure Library.Sends (lib : Library) (c : MessageClass) (m : Instance) (rs : List Record) : Prop where
  formed : ∀ r ∈ rs, r.Formed lib c
  members : ∀ f ∈ c.fields, f.oneof ≠ none →
    ((∃ r ∈ rs, r.codec.target = f.attr) ↔ MessageClass.isActive m f = true)

namespace Library

/-- The instance can be written, down to a depth of nesting. -/
def WritableUpTo (lib : Library) : Nat → Instance → Prop
  | 0, _ => False
  | fuel + 1, m => ∃ c, lib.message? m.type = some c ∧ InstanceWritable lib (lib.WritableUpTo fuel) c m

/-- The instance can be written. -/
def Writable (lib : Library) (m : Instance) : Prop := lib.WritableUpTo m.value.depth m

end Library

/-- A class whose two sides are paired and whose records can be merged, with numbers that keys have room for. The
defaults of its fields are values of their kinds, and none of a message. -/
structure Deliverable (lib : Library) (c : MessageClass) : Prop extends Mergeable lib c, Paired lib c where
  range : ∀ p ∈ c.codecs, 0 ≤ p.number ∧ p.number < 2 ^ 29
  defaults : ∀ f ∈ c.fields, FieldTyped Scalar.Accepts lib (fun _ => False) f f.newDefault

/-- One record of a field. -/
def recordOf (p : FieldCodec) (x : Nat × List UInt8) : Record := ⟨p, x.1, Wire.key p.number x.1, x.2⟩

theorem bytesOf_recordOf (p : FieldCodec) (records : List (Nat × List UInt8)) :
    bytesOf (records.map (recordOf p)) = recordBytes p.number records := by
  rw [bytesOf, List.flatMap_map]
  rfl

theorem length_le_flatMap {α β : Type} {xs : List α} {f : α → List β} {x : α} (hx : x ∈ xs) :
    (f x).length ≤ (xs.flatMap f).length := by
  rw [List.flatMap_def]
  exact (List.sublist_flatten_of_mem (List.mem_map_of_mem hx)).length_le

theorem Library.Receives.formed (hlib : lib.IsReadable) (hc : Deliverable lib c) (hp : p ∈ c.codecs)
    {records : List (Nat × List UInt8)} (h : lib.Receives p records)
    (hshort : (recordBytes p.number records).length < 2 ^ 32) : ∀ x ∈ records, (recordOf p x).Formed lib c := by
  intro x hx
  obtain ⟨hframes, hgives⟩ := h x hx
  have hle := length_le_flatMap (f := fun x : Nat × List UInt8 => Wire.key p.number x.1 ++ x.2) hx
  rw [List.length_append, ← recordBytes] at hle
  obtain ⟨e, he⟩ := hgives (by omega)
  obtain ⟨low, high⟩ := hc.range p hp
  refine ⟨hp, hframes, ⟨_, Wire.key_grammar low high hframes.lt, ?_⟩, he.consumes hlib hc.toReadable hp⟩
  have hw := hframes.lt
  rw [Nat.mod_eq_of_lt (by omega)]
  simp only [recordOf]
  omega

/-- The codec of a field. -/
theorem Deliverable.codec (hc : Deliverable lib c) (hf : f ∈ c.fields) : ∃ p ∈ c.codecs, Matches lib f p :=
  forall₂_mem hc.fields hf

/-- The field of a codec. -/
theorem Deliverable.field (hc : Deliverable lib c) (hp : p ∈ c.codecs) : ∃ f ∈ c.fields, Matches lib f p :=
  forall₂_mem hc.fields.flip hp

/-- **One field of an instance is written as records**, one of them or none if it is a member of a group. -/
theorem InstanceWritable.field_written (hn : Delivers lib body nested) (hlib : lib.IsReadable) (hc : Deliverable lib c)
    (hm : InstanceWritable lib nested c m) (hf : f ∈ c.fields) (hp : p ∈ c.codecs) (ha : Matches lib f p) :
    ∃ records, (do lib.writeField body m f (← c.get m f.attr)) = .ok (recordBytes p.number records) ∧
      lib.Receives p records ∧ (f.oneof ≠ none → (records ≠ [] ↔ MessageClass.isActive m f = true)) := by
  have hmissing := hc.missingPart hlib hp
  have hbytes {v : Value} (hget : c.get m f.attr = .ok v) :
      (do lib.writeField body m f (← c.get m f.attr)) = lib.writeField body m f v := by
    rw [hget]
    rfl
  by_cases hone : f.oneof = none
  · obtain ⟨v, hv, hcase⟩ := hm.regular f hf hone
    rw [hbytes (hc.get_regular hf hone hv)]
    obtain ⟨records, hwrite, hreceives⟩ : ∃ records,
        lib.writeField body m f v = .ok (recordBytes p.number records) ∧ lib.Receives p records := by
      rcases hcase with rfl | typed
      exacts [default_written hn ha hone hmissing (hc.defaults f hf) m, typed.written hn ha hone hmissing m]
    exact ⟨records, hwrite, hreceives, fun h => absurd hone h⟩
  · cases hactive : MessageClass.isActive m f with
    | true =>
      obtain ⟨group, v, hchosen⟩ := MessageClass.isActive_iff.mp hactive
      obtain ⟨e, helem, typed⟩ := hm.chosen f hf group v hchosen
      cases ha.element.symm.trans helem
      obtain ⟨payload, hwrite, hreceives⟩ := writeValue_single hn ha (ha.grouped hone) typed
      refine ⟨_, ?_, hreceives, fun _ => iff_of_true (List.cons_ne_nil _ _) rfl⟩
      rw [hbytes (hc.get_chosen hf hchosen), writeField_active ha.id hone hactive, hwrite]
    | false =>
      refine ⟨[], ?_, .nil lib p, fun _ => iff_of_false (fun h => h rfl) Bool.false_ne_true⟩
      exact (hbytes (hc.get_inactive hf hone hactive)).trans (writeField_inactive hone hactive)

/-- **An instance is written as records**, as far as their lengths can be. -/
theorem InstanceWritable.written (hn : Delivers lib body nested) (hlib : lib.IsReadable) (hc : Deliverable lib c)
    (hm : InstanceWritable lib nested c m) :
    ∃ bs, writeAll (fun f => do lib.writeField body m f (← c.get m f.attr)) c.fields = .ok bs ∧
      (bs.length < 2 ^ 32 → ∃ rs, bs = bytesOf rs ∧ lib.Sends c m rs) := by
  obtain ⟨xs, hwrite, hall⟩ := writeAll_exists (fun f => do lib.writeField body m f (← c.get m f.attr))
    (fun x : FieldCodec × List (Nat × List UInt8) => recordBytes x.1.number x.2)
    (fun f x => x.1 ∈ c.codecs ∧ x.1.target = f.attr ∧ lib.Receives x.1 x.2 ∧
      (f.oneof ≠ none → (x.2 ≠ [] ↔ MessageClass.isActive m f = true))) fun f hf => by
    obtain ⟨p, hp, ha⟩ := hc.codec hf
    obtain ⟨records, hwrite, hreceives, hset⟩ := hm.field_written hn hlib hc hf hp ha
    exact ⟨(p, records), hwrite, hp, ha.target, hreceives, hset⟩
  have hmem {r : Record} : r ∈ xs.flatMap (fun x => x.2.map (recordOf x.1)) ↔
      ∃ x ∈ xs, ∃ y ∈ x.2, recordOf x.1 y = r := by
    simp only [List.mem_flatMap, List.mem_map]
  refine ⟨_, hwrite, fun hshort => ⟨xs.flatMap fun x => x.2.map (recordOf x.1), ?_, fun r hr => ?_, fun f hf hone => ?_⟩⟩
  · rw [bytesOf, List.flatMap_assoc]
    exact congrArg (List.flatMap · xs) (funext fun x => (bytesOf_recordOf x.1 x.2).symm)
  · obtain ⟨x, hx, y, hy, rfl⟩ := hmem.mp hr
    obtain ⟨f, -, hp, -, hreceives, -⟩ := forall₂_mem hall.flip hx
    have hle := length_le_flatMap (f := fun x : FieldCodec × List (Nat × List UInt8) => recordBytes x.1.number x.2) hx
    exact hreceives.formed hlib hc hp (by omega) y hy
  · obtain ⟨x, hx, -, htarget, -, hset⟩ := forall₂_mem hall hf
    rw [← hset hone]
    constructor
    · rintro ⟨r, hr, hsame⟩
      obtain ⟨x', hx', y, hy, rfl⟩ := hmem.mp hr
      obtain ⟨f', hf', -, htarget', -, hset'⟩ := forall₂_mem hall.flip hx'
      obtain rfl := hc.attr_inj hf' hf (htarget'.symm.trans hsame)
      exact (hset hone).mpr ((hset' hone).mp (List.ne_nil_of_mem hy))
    · intro hne
      obtain ⟨y, hy⟩ := List.exists_mem_of_ne_nil _ hne
      exact ⟨_, hmem.mpr ⟨x, hx, y, hy, rfl⟩, htarget⟩

/-! ## Coming back -/

/-- The instances have the same members set in their groups. -/
def Instance.SameMembers (m m' : Instance) : Prop := ∀ group, (m'.choice? group).map (·.1) = (m.choice? group).map (·.1)

section Received

variable {rs : List Record} {given : List (FieldCodec × Contribution)} {group : String}

/-- A record that sets a member is one of a member that is set. -/
theorem Library.Sends.setIn_active (hc : Deliverable lib c) (h : lib.Sends c m rs)
    (hgiven : List.Forall₂ (Record.Contributes lib) rs given) {x : FieldCodec × Contribution} (hx : x ∈ given)
    {y : String × Value} (hy : c.setIn group x = some y) : ∃ w, m.choice? group = some (y.1, w) := by
  obtain ⟨r, hr, hcodec, -⟩ := forall₂_mem hgiven.flip hx
  have hp := (h.formed r hr).codec
  rw [← hcodec] at hp
  obtain ⟨f, hf, ha⟩ := hc.field hp
  have hattr : x.1.attr = f.attr := (hc.own x.1 hp).symm.trans ha.target
  unfold MessageClass.setIn at hy
  rw [hattr, hc.descriptor f hf] at hy
  cases hgroup : f.oneofAttr with
  | none =>
    rw [hgroup] at hy
    cases hy
  | some other =>
    rw [hgroup] at hy
    obtain ⟨rfl, hvalue⟩ := Option.ite_none_right_eq_some.mp hy
    obtain ⟨v, -, rfl⟩ := Option.map_eq_some_iff.mp hvalue
    have hone : f.oneof ≠ none := fun hone => by
      rw [oneofAttr_eq_none_iff.mpr hone] at hgroup
      cases hgroup
    obtain ⟨group, w, hchosen⟩ := MessageClass.isActive_iff.mp
      ((h.members f hf hone).mp ⟨r, hr, hcodec ▸ ha.target⟩)
    obtain rfl : other = group := Option.some.inj (hgroup.symm.trans hchosen.1)
    exact ⟨w, hchosen.2⟩

/-- A member that is set has a record that sets it. -/
theorem Library.Sends.active_setIn (hc : Deliverable lib c) (h : lib.Sends c m rs)
    (hgiven : List.Forall₂ (Record.Contributes lib) rs given) (hf : f ∈ c.fields) (hchosen : Chosen m f group v) :
    ∃ y, y ∈ given.filterMap (c.setIn group) := by
  have hone := hchosen.grouped
  obtain ⟨r, hr, htarget⟩ := (h.members f hf hone).mpr (MessageClass.isActive_iff.mpr ⟨group, v, hchosen⟩)
  have hp := (h.formed r hr).codec
  obtain ⟨f', hf', ha⟩ := hc.field hp
  obtain rfl := hc.attr_inj hf' hf (ha.target.symm.trans htarget)
  obtain ⟨x, hx, hcodec, hgives⟩ := forall₂_mem hgiven hr
  have hfits := hgives.fits
  rw [ha.grouped hone] at hfits
  obtain ⟨w, hw, -⟩ := hfits
  refine ⟨(f'.attr, w), List.mem_filterMap.mpr ⟨x, hx, ?_⟩⟩
  have hattr : x.1.attr = f'.attr := by rw [hcodec, ← hc.own _ hp, htarget]
  simp only [MessageClass.setIn, hattr, hc.descriptor f' hf', hchosen.1, Option.map_some, if_true, hw,
    Contribution.value?]

/-- **The records of an instance are a message with the same members set.** -/
theorem Library.Sends.received (hlib : lib.IsReadable) (hc : Deliverable lib c)
    (hfound : lib.message? c.fullName = some c) (hm : WellSet c m) (h : lib.Sends c m rs) :
    ∃ m' : Instance, lib.ofBytes c.fullName (bytesOf rs) = .ok m'.value ∧ m.SameMembers m' := by
  obtain ⟨m₀, given, m', -, hgiven, hread, hmerged⟩ := (hc.toMergeable.merges hlib hfound).merged rs h.formed
  refine ⟨m', hread, fun group => ?_⟩
  rw [hmerged.groups group]
  cases hchoice : m.choice? group with
  | none =>
    have hnone : given.filterMap (c.setIn group) = [] := by
      refine List.eq_nil_iff_forall_not_mem.mpr fun y hy => ?_
      obtain ⟨x, hx, hset⟩ := List.mem_filterMap.mp hy
      obtain ⟨w, hw⟩ := h.setIn_active hc hgiven hx hset
      cases hchoice.symm.trans hw
    rw [hnone]
    rfl
  | some x =>
    obtain ⟨f, hf, hgroup, hattr⟩ := hm.chosen _ (Entries.mem_of_lookup hchoice)
    have hchosen : Chosen m f group x.2 := ⟨hgroup, hattr ▸ hchoice⟩
    obtain ⟨y, hy⟩ := h.active_setIn hc hgiven hf hchosen
    obtain ⟨last, hlast⟩ : ∃ last, (given.filterMap (c.setIn group)).getLast? = some last :=
      Option.isSome_iff_exists.mp (List.getLast?_isSome.mpr (List.ne_nil_of_mem hy))
    obtain ⟨z, hz, hset⟩ := List.mem_filterMap.mp (List.mem_of_getLast? hlast)
    obtain ⟨w, hw⟩ := h.setIn_active hc hgiven hz hset
    rw [hlast, Option.map_some, Option.map_some]
    exact congrArg (some ·.1) (Option.some.inj (hw.symm.trans hchoice))

end Received

theorem InstanceWritable.mono {nested' : Instance → Prop} (hn : ∀ m, nested m → nested' m)
    (h : InstanceWritable lib nested c m) : InstanceWritable lib nested' c m where
  regular f hf hone := (h.regular f hf hone).imp fun _ hv => ⟨hv.1, hv.2.imp id (FieldTyped.mono hn)⟩
  wellSet := h.wellSet
  chosen f hf group v hchosen := (h.chosen f hf group v hchosen).imp fun _ he => ⟨he.1, he.2.mono hn⟩

namespace Library

theorem WritableUpTo.mono : ∀ {k l : Nat} {m : Instance}, k ≤ l → lib.WritableUpTo k m → lib.WritableUpTo l m
  | 0, _, _, _, h => h.elim
  | _ + 1, 0, _, hle, _ => absurd hle (Nat.not_succ_le_zero _)
  | _ + 1, _ + 1, _, hle, ⟨c, hc, h⟩ =>
    ⟨c, hc, h.mono fun _ => WritableUpTo.mono (Nat.le_of_succ_le_succ hle)⟩

end Library

end ProtoBind.Message
