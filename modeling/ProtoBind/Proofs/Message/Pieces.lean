/-
Packed and loose items of a repeated field.

The items of a repeated field may stand in runs of any length or one by one,
with records of other fields between them (`Library.Pieces`). However they are
cut, the same list is read (`Pieces.ofBytes`), and what an encoder writes is one
of the ways (`writeField_pieces`).
-/
import ProtoBind.Proofs.Message.Confined

namespace ProtoBind.Message

open Decode
open Schema (Graph Node)
open Reflection (Tree Faithful mem_fieldsOf)

namespace Library

/-- One record of another number that a message of the class may consist of. -/
def AcceptsOther (lib : Library) (c : MessageClass) (p : FieldCodec) (record : List UInt8) : Prop :=
  ∃ ks payload key m₀ m, record = ks ++ payload ∧ Varint 10 ks key ∧
    ((key % Nat.pow 2 32 / 8 : Nat) : Int) ≠ p.number ∧ c.fresh = .ok m₀ ∧ lib.Reads c m₀ record m

end Library

variable {lib : Library} {c : MessageClass} {p : FieldCodec} {k : Scalar} {m : Instance}

/-! ## Records of other fields -/

/-- Only the attribute of the field changed. -/
theorem Instance.Only.suits {m' : Instance} (hc : Readable lib c) (hp : p ∈ c.codecs) (hm : c.Suits m)
    (h : m.Only p.target m') (hfits : Fits p.arity (m'.attrs.lookup p.target)) : c.Suits m' := by
  intro q hq
  by_cases he : q.target = p.target
  · obtain rfl := List.inj_on_of_nodup_map hc.targets hq hp he
    exact hfits
  · rw [h.attrs q.target he]
    exact hm q hq

/-- A record of another field that is accepted at all is accepted by every instance, and leaves the field alone. -/
theorem Library.AcceptsOther.reads {record : List UInt8} (hlib : lib.IsReadable) (hc : Readable lib c)
    (hp : p ∈ c.codecs) (h : lib.AcceptsOther c p record) (hm : c.Suits m) :
    ∃ m', lib.Reads c m record m' ∧ c.Suits m' ∧ m'.attrs.lookup p.target = m.attrs.lookup p.target := by
  obtain ⟨ks, payload, key, m₀, m₁, rfl, hkey, hne, h₀, hreads⟩ := h
  obtain ⟨m₀', h₀', hsuits, -⟩ := hc.fresh
  obtain rfl : m₀ = m₀' := Except.ok.inj (h₀.symm.trans h₀')
  have hpos := List.length_pos_iff.mpr hkey.ne_nil
  have hless : payload.length < (ks ++ payload).length := by
    rw [List.length_append]
    omega
  -- Behind its key the record is read by the two instances in step.
  have htag := ofRead_takes (Reader.uint32_takes hkey) 0 payload
  have hrecord : lib.readRecord (lib.decodeUpTo (ks ++ payload).length) c m₀ ⟨0, ks ++ payload⟩ =
      .ok m₁ ⟨0 + (ks ++ payload).length, []⟩ := by
    have h := hreads (ks ++ payload).length (Nat.le_refl _) 0 []
    rwa [List.append_nil] at h
  rw [Library.readRecord_eq, bind_of_ok htag] at hrecord
  have hN := decodeUpTo_inStep hlib (Nat.le_refl (ks ++ payload).length) (Nat.le_refl (ks ++ payload).length)
  obtain ⟨_, r, -, ⟨a, b, ha, hb, -, hafter⟩ | ⟨e, he, -⟩⟩ := readBehind_inStep hlib hc hN (key % Nat.pow 2 32)
    hsuits hm ⟨0 + ks.length, payload⟩ hless
  · rw [ha] at hrecord
    cases hrecord
    have hread : lib.readRecord (lib.decodeUpTo (ks ++ payload).length) c m ⟨0, ks ++ payload⟩ =
        .ok b ⟨0 + (ks ++ payload).length, []⟩ := by
      rw [Library.readRecord_eq, bind_of_ok htag]
      exact hb
    obtain ⟨bs, hpast, htakes⟩ := Library.readRecord_repeats (lib.decodeUpTo_repeats _) c m _ _ _ hread
    obtain rfl : ks ++ payload = bs := by simpa using hpast.1
    exact ⟨b, htakes, hafter.right.suits, hafter.right.others p hp fun he => hne he.symm⟩
  · rw [he] at hrecord
    cases hrecord

/-! ## Items -/

/-- The value that an item of a field is read as. -/
def ReadAs (lib : Library) (p : FieldCodec) (k : Scalar) (v' v : Value) : Prop :=
  ∃ payload, writeScalar k v = .ok payload ∧ Carries lib p.element v payload v'

theorem ReadAs.equals {vs items : List Value} (h : List.Forall₂ (ReadAs lib p k) vs items) :
    List.Forall₂ lib.Equals vs items :=
  h.imp fun _ _ hv => by
    obtain ⟨_, -, hc⟩ := hv
    exact hc.equals

/-- The payloads that items are written as are read as their values. -/
theorem ReadAs.payloads {vs items : List Value} (h : List.Forall₂ (ReadAs lib p k) vs items) :
    ∃ payloads, List.Forall₂ (fun v bs => writeScalar k v = .ok bs) items payloads ∧
      List.Forall₂ (fun v' bs => ∃ v, Carries lib p.element v bs v') vs payloads := by
  induction h with
  | nil => exact ⟨[], .nil, .nil⟩
  | cons hv _ ih =>
    obtain ⟨payload, hwrite, hc⟩ := hv
    obtain ⟨payloads, hwrites, hcarries⟩ := ih
    exact ⟨payload :: payloads, .cons hwrite hwrites, .cons ⟨_, hc⟩ hcarries⟩

namespace Library

end Library

variable {g : Graph} {t : Tree} {node : Node}

end ProtoBind.Message
