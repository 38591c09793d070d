/-
The values of the wire format as a grammar, and the readers against it.

A varint is read exactly where the grammar has one (`varintUpTo_takes`,
`varintUpTo_sound`), and passing over a value of a wire type takes exactly a value
of that type (`skipType_takes`, `skipType_sound`), a group with all that is nested in it.
-/
import ProtoBind.Proofs.Wire.Takes

namespace ProtoBind

/-- The bytes are a varint of at most `limit` bytes: every byte but the last has its high bit
set, and each gives seven bits, the lowest first. -/
inductive Varint : (limit : Nat) → List UInt8 → Nat → Prop
  | last {limit : Nat} {b : UInt8} (low : b.toNat < 128) : Varint (limit + 1) [b] b.toNat
  | more {limit : Nat} {b : UInt8} {bs : List UInt8} {n : Nat} (high : ¬ b.toNat < 128)
      (rest : Varint limit bs n) : Varint (limit + 1) (b :: bs) (b.toNat - 128 + 128 * n)

/-- The bytes are a value of a wire type. A group is a run of keys with values, up to a key that
ends it; the numbers in its keys are free. -/
inductive WireValue : (wireType : Nat) → List UInt8 → Prop
  | varint {bs n} (h : Varint 10 bs n) : WireValue 0 bs
  | fixed64 {bs} (h : bs.length = 8) : WireValue 1 bs
  | delimited {ls bs n} (h : Varint 10 ls n) (hl : bs.length = n % Nat.pow 2 32) : WireValue 2 (ls ++ bs)
  | groupEnd {ks k} (h : Varint 10 ks k) (he : k % 8 = 4) : WireValue 3 ks
  | groupField {ks k bs rest} (h : Varint 10 ks k) (hv : WireValue (k % 8) bs)
      (hr : WireValue 3 rest) : WireValue 3 (ks ++ (bs ++ rest))
  | fixed32 {bs} (h : bs.length = 4) : WireValue 5 bs

theorem Varint.ne_nil {limit : Nat} {bs : List UInt8} {n : Nat} (h : Varint limit bs n) :
    bs ≠ [] := by
  cases h <;> simp

/-- The wire types whose values can be passed over. -/
theorem WireValue.wireType_ne_end {w : Nat} {bs : List UInt8} (h : WireValue w bs) : w ≠ 4 := by
  cases h <;> simp

namespace Reader

/-! ## Bytes and varints -/

theorem byte_takes (b : UInt8) : Takes byte [b] b := fun _ _ => rfl

theorem byte_sound {r r' : Reader} {b : UInt8} (h : byte r = .ok b r') : r.Past [b] r' := by
  simp only [byte] at h
  split at h
  · cases h
  next b' rest hr =>
    cases h
    exact ⟨hr, rfl⟩

theorem take_takes (bs : List UInt8) : Takes (take bs.length) bs bs := by
  intro pos tail
  simp [take]

theorem take_sound {n : Nat} {r r' : Reader} {bs : List UInt8} (h : take n r = .ok bs r') :
    r.Past bs r' ∧ bs.length = n := by
  simp only [take] at h
  split at h
  · cases h
  next hn =>
    cases h
    have hl : (r.rest.take n).length = n := by rw [List.length_take]; omega
    exact ⟨⟨(List.take_append_drop n r.rest).symm, by rw [hl]⟩, hl⟩

theorem take_local (n : Nat) : Local (take n) := by
  intro r bs r' h
  obtain ⟨hp, rfl⟩ := take_sound h
  exact ⟨bs, hp, fun _ _ => take_takes bs⟩

theorem varintUpTo_takes {limit : Nat} {bs : List UInt8} {n : Nat} (h : Varint limit bs n) :
    Takes (varintUpTo limit) bs n := by
  induction h with
  | @last limit b low =>
    refine (byte_takes b).bind_nil ?_
    rw [if_pos low]
    exact Takes.pure _
  | @more limit b bs n high rest ih =>
    refine (byte_takes b).bind ?_
    rw [if_neg high]
    exact ih.map

theorem varintUpTo_sound : ∀ {limit : Nat} {r r' : Reader} {n : Nat}, varintUpTo limit r = .ok n r' →
    ∃ bs, r.Past bs r' ∧ Varint limit bs n
  | 0, _, _, _, h => by cases h
  | limit + 1, r, r', n, h => by
    obtain ⟨b, r₁, hb, h⟩ := bind_eq_ok.mp h
    have hp := byte_sound hb
    split at h
    next low =>
      cases h
      exact ⟨[b], hp, .last low⟩
    next high =>
      obtain ⟨m, r₂, hm, h⟩ := bind_eq_ok.mp h
      cases h
      obtain ⟨bs, hp', hv⟩ := varintUpTo_sound hm
      exact ⟨b :: bs, hp.trans hp', .more high hv⟩

theorem varintUpTo_local (limit : Nat) : Local (varintUpTo limit) := by
  intro r n r' h
  obtain ⟨bs, hp, hv⟩ := varintUpTo_sound h
  exact ⟨bs, hp, fun _ _ => varintUpTo_takes hv⟩

theorem varint_advances : Advances varint := by
  intro pos n r' h
  cases h

theorem uint32_takes {bs : List UInt8} {n : Nat} (h : Varint 10 bs n) :
    Takes uint32 bs (n % Nat.pow 2 32) :=
  (varintUpTo_takes h).map

theorem uint32_sound {r r' : Reader} {k : Nat} (h : uint32 r = .ok k r') :
    ∃ bs n, r.Past bs r' ∧ Varint 10 bs n ∧ k = n % Nat.pow 2 32 := by
  obtain ⟨n, r₁, hn, h⟩ := bind_eq_ok.mp h
  cases h
  obtain ⟨bs, hp, hv⟩ := varintUpTo_sound hn
  exact ⟨bs, n, hp, hv, rfl⟩

theorem uint32_local : Local uint32 := (varintUpTo_local 10).map

theorem uint32_advances : Advances uint32 := varint_advances.bind

/-! ## Byte strings behind their length -/

theorem bytes_takes {ls bs : List UInt8} {n : Nat} (h : Varint 10 ls n)
    (hl : bs.length = n % Nat.pow 2 32) : Takes bytes (ls ++ bs) bs := by
  refine (uint32_takes h).bind ?_
  rw [← hl]
  exact take_takes bs

theorem bytes_local : Local bytes := uint32_local.bind fun n => take_local n

theorem fixed_local (n : Nat) : Local (fixed n) := (take_local n).map

theorem string_local : Local string := by
  refine bytes_local.bind fun bs => ?_
  cases Text.decodeUtf8? bs with
  | none => exact Repeats.throw _
  | some s => exact Repeats.pure s

/-- Reading a scalar does not look beyond what it takes. -/
theorem scalar_local (k : Scalar) : Local (scalar k) := by
  have h32 : Local uint32 := uint32_local
  have h64 : Local uint64 := (varintUpTo_local 10).map
  cases k with
  | double => exact (fixed_local 8).map.map
  | float => exact (fixed_local 4).map.map
  | int32 => exact h32.map.map
  | int64 => exact h64.map.map
  | uint32 => exact h32.map
  | uint64 => exact h64.map
  | sint32 => exact h32.map.map
  | sint64 => exact h64.map.map
  | fixed32 => exact (fixed_local 4).map
  | fixed64 => exact (fixed_local 8).map
  | sfixed32 => exact (fixed_local 4).map
  | sfixed64 => exact (fixed_local 8).map
  | bool => exact (varintUpTo_local 10).map.map
  | string => exact string_local.map
  | bytes => exact bytes_local.map

/-- Every scalar takes at least one byte. -/
theorem scalar_advances (k : Scalar) : Advances (scalar k) := by
  cases k <;> intro pos v r' h <;> cases h

/-! ## Passing over values -/

theorem skip_takes {n : Nat} {bs : List UInt8} (h : bs.length = n) : Takes (skip n) bs () := by
  subst h
  exact (take_takes bs).map

theorem skip_sound {n : Nat} {r r' : Reader} {u : Unit} (h : skip n r = .ok u r') :
    ∃ bs, r.Past bs r' ∧ bs.length = n := by
  obtain ⟨bs, r₁, hb, h⟩ := bind_eq_ok.mp h
  cases h
  exact ⟨bs, take_sound hb⟩

theorem skipWith_varint (group : Read Unit) : skipWith group (0 : Nat) = skipVarint := rfl
theorem skipWith_fixed64 (group : Read Unit) : skipWith group (1 : Nat) = skip 8 := rfl
theorem skipWith_delimited (group : Read Unit) :
    skipWith group (2 : Nat) = (uint32 >>= fun n => skip n) := rfl
theorem skipWith_group (group : Read Unit) : skipWith group (3 : Nat) = group := rfl
theorem skipWith_fixed32 (group : Read Unit) : skipWith group (5 : Nat) = skip 4 := rfl

/-- A value of a wire type is passed over exactly, given as much fuel as it has bytes. -/
theorem skipWith_takes {w : Nat} {bs : List UInt8} (h : WireValue w bs) :
    ∀ fuel, bs.length ≤ fuel → Takes (skipWith (skipGroup fuel) w) bs () := by
  induction h with
  | varint h =>
    intro fuel _
    rw [skipWith_varint]
    exact (varintUpTo_takes h).map
  | fixed64 h =>
    intro fuel _
    rw [skipWith_fixed64]
    exact skip_takes h
  | delimited h hl =>
    intro fuel _
    rw [skipWith_delimited]
    exact (uint32_takes h).bind (skip_takes hl)
  | fixed32 h =>
    intro fuel _
    rw [skipWith_fixed32]
    exact skip_takes h
  | groupEnd h he =>
    intro fuel hf
    obtain ⟨fuel, rfl⟩ : ∃ n, fuel = n + 1 :=
      ⟨fuel - 1, by have := List.length_pos_iff.mpr h.ne_nil; omega⟩
    rw [skipWith_group]
    refine (uint32_takes h).bind_nil ?_
    rw [if_pos (by simp only [Nat.pow_eq]; omega)]
    exact Takes.pure ()
  | @groupField ks k bs rest h hv hr ihv ihr =>
    intro fuel hf
    have hk := List.length_pos_iff.mpr h.ne_nil
    simp only [List.length_append] at hf
    obtain ⟨fuel, rfl⟩ : ∃ n, fuel = n + 1 := ⟨fuel - 1, by omega⟩
    have hw : k % Nat.pow 2 32 % 8 = k % 8 := by simp only [Nat.pow_eq]; omega
    rw [skipWith_group]
    refine (uint32_takes h).bind ?_
    rw [hw, if_neg hv.wireType_ne_end]
    refine (ihv fuel (by omega)).bind ?_
    have := ihr fuel (by omega)
    rwa [skipWith_group] at this

/-- What is passed over is a value of the wire type. -/
theorem skipWith_sound : ∀ {fuel : Nat} {w : Nat} {r r' : Reader} {u : Unit},
    skipWith (skipGroup fuel) w r = .ok u r' → ∃ bs, r.Past bs r' ∧ WireValue w bs
  | fuel, w, r, r', u, h => by
    unfold skipWith at h
    split at h
    next hw =>
      obtain ⟨n, r₁, hn, h⟩ := bind_eq_ok.mp h
      cases h
      obtain ⟨bs, hp, hv⟩ := varintUpTo_sound hn
      obtain rfl : w = 0 := by omega
      exact ⟨bs, hp, .varint hv⟩
    split at h
    next hw =>
      obtain ⟨bs, hp, hl⟩ := skip_sound h
      obtain rfl : w = 1 := by omega
      exact ⟨bs, hp, .fixed64 hl⟩
    split at h
    next hw =>
      obtain ⟨n, r₁, hn, h⟩ := bind_eq_ok.mp h
      obtain ⟨ls, m, hp, hv, rfl⟩ := uint32_sound hn
      obtain ⟨bs, hp', hl⟩ := skip_sound h
      obtain rfl : w = 2 := by omega
      exact ⟨ls ++ bs, hp.trans hp', .delimited hv hl⟩
    split at h
    next hw =>
      obtain rfl : w = 3 := by omega
      cases fuel with
      | zero => cases h
      | succ fuel =>
        obtain ⟨k, r₁, hk, h⟩ := bind_eq_ok.mp h
        obtain ⟨ks, m, hp, hv, rfl⟩ := uint32_sound hk
        have he : m % Nat.pow 2 32 % 8 = m % 8 := by simp only [Nat.pow_eq]; omega
        rw [he] at h
        split at h
        next hend =>
          cases h
          exact ⟨ks, hp, .groupEnd hv hend⟩
        next hend =>
          obtain ⟨_, r₂, h₂, h⟩ := bind_eq_ok.mp h
          obtain ⟨bs, hp', hb⟩ := skipWith_sound h₂
          rw [← skipWith_group (skipGroup fuel)] at h
          obtain ⟨rest, hp'', hr⟩ := skipWith_sound h
          exact ⟨ks ++ (bs ++ rest), hp.trans (hp'.trans hp''), .groupField hv hb hr⟩
    by_cases hw : (w : Int) = 5
    · obtain ⟨bs, hp, hl⟩ := skip_sound ((congrFun (if_pos hw) r).symm.trans h)
      obtain rfl : w = 5 := by omega
      exact ⟨bs, hp, .fixed32 hl⟩
    · cases (congrFun (if_neg hw) r).symm.trans h
termination_by fuel => fuel

theorem skipType_takes {w : Nat} {bs : List UInt8} (h : WireValue w bs) : Takes (skipType w) bs () := by
  intro pos tail
  exact skipWith_takes h _ (by simp only [List.length_append]; omega) pos tail

theorem skipType_sound {w : Nat} {r r' : Reader} {u : Unit} (h : skipType w r = .ok u r') :
    ∃ bs, r.Past bs r' ∧ WireValue w bs :=
  skipWith_sound h

theorem skipType_local (w : Nat) : Local (skipType w) := by
  intro r u r' h
  obtain ⟨bs, hp, hv⟩ := skipType_sound h
  exact ⟨bs, hp, fun _ _ => skipType_takes hv⟩

end Reader
end ProtoBind
