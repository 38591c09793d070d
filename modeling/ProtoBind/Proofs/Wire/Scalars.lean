/-
Scalar values on the wire and back.

`Scalar.Holds k v` says that `v` is a value of the kind `k`: integers in the
range of the kind, floats that keep their value in the width of the kind, and
texts and bytes whose length can be written. `Scalar.write_takes`: such a
value can be written, what is written is a value of the kind's wire type, and
reading it back gives an equal value.
-/
import Mathlib.Algebra.Group.Int.Defs
import Mathlib.Algebra.Group.Nat.Defs
import ProtoBind.Proofs.Wire.Grammar
import ProtoBind.Wire.Writer

namespace ProtoBind

/-- The integers that an integer kind can hold. -/
def Scalar.InRange : Scalar → Int → Prop
  | .int32, n | .sint32, n | .sfixed32, n => -2 ^ 31 ≤ n ∧ n < 2 ^ 31
  | .int64, n | .sint64, n | .sfixed64, n => -2 ^ 63 ≤ n ∧ n < 2 ^ 63
  | .uint32, n | .fixed32, n => 0 ≤ n ∧ n < 2 ^ 32
  | .uint64, n | .fixed64, n => 0 ≤ n ∧ n < 2 ^ 64
  | _, _ => False

/-- The value is one that the kind can hold and the wire can carry. -/
inductive Scalar.Holds : Scalar → Value → Prop
  | integer {k : Scalar} {n : Int} (range : k.InRange n) : Holds k (.int n)
  | truth (b : Bool) : Holds .bool (.bool b)
  | text {s : String} (short : (Text.encodeUtf8 s).length < 2 ^ 32) : Holds .string (.text s)
  | octets {bs : List UInt8} (short : bs.length < 2 ^ 32) : Holds .bytes (.bytes bs)
  | double {x : Binary64} (number : x.isNaN = false) : Holds .double (.float x)
  | single {x : Binary64} {w : UInt32} (pack : x.toSingle? = some w)
      (unpack : (Binary64.ofSingle w).equal x = true) : Holds .float (.float x)

/-! ## Varints -/

theorem Wire.varint_grammar : ∀ {l n : Nat}, n < 128 ^ (l + 1) →
    Varint (l + 1) (Wire.varint n) n
  | l, n, h => by
    rw [Wire.varint]
    split
    next hn =>
      have e : (UInt8.ofNat n).toNat = n := by rw [UInt8.toNat_ofNat']; omega
      have : Varint (l + 1) [UInt8.ofNat n] (UInt8.ofNat n).toNat := .last (by omega)
      rwa [e] at this
    next hn =>
      have e : (UInt8.ofNat (n % 128 + 128)).toNat = n % 128 + 128 := by
        rw [UInt8.toNat_ofNat']; omega
      cases l with
      | zero => omega
      | succ l =>
        rw [Nat.pow_succ] at h
        have hr := Wire.varint_grammar (l := l) (n := n / 128) (by omega)
        have := Varint.more (b := UInt8.ofNat (n % 128 + 128)) (by omega) hr
        rwa [e, Nat.add_sub_cancel, Nat.mod_add_div] at this

/-- A number of 64 bits is a varint that every reader accepts. -/
theorem Wire.varint_word {n : Nat} (h : n < 2 ^ 64) : Varint 10 (Wire.varint n) n :=
  Wire.varint_grammar (l := 9) (by omega)

theorem Wire.reduce_of_nonneg {w : Nat} {n : Int} (h₀ : 0 ≤ n) (h : n < (2 ^ w : Nat)) :
    (Wire.reduce w n : Int) = n := by
  simp only [Wire.reduce, Nat.pow_eq]
  rw [Int.emod_eq_of_lt h₀ h]
  omega

theorem Wire.reduce_of_neg {w : Nat} {n : Int} (h₀ : -(2 ^ w : Nat) ≤ n) (h : n < 0) :
    (Wire.reduce w n : Int) = (2 ^ w : Nat) + n := by
  simp only [Wire.reduce, Nat.pow_eq]
  rw [← Int.add_emod_left, Int.emod_eq_of_lt (by omega) (by omega)]
  omega

/-- A length below `2^32` is written so that it is read back. -/
theorem Wire.length_grammar {n : Nat} (h : n < 2 ^ 32) :
    Varint 10 (Wire.uint32 n) n ∧ n = n % Nat.pow 2 32 := by
  refine ⟨?_, by simp only [Nat.pow_eq]; omega⟩
  have e : Wire.reduce 32 n = n := by
    have := Wire.reduce_of_nonneg (w := 32) (n := (n : Int)) (by omega) (by omega)
    omega
  rw [Wire.uint32, e]
  exact Wire.varint_word (by omega)

theorem Wire.bytes_takes {bs : List UInt8} (h : bs.length < 2 ^ 32) :
    Takes Reader.bytes (Wire.bytes bs) bs := by
  obtain ⟨hv, hl⟩ := Wire.length_grammar h
  exact Reader.bytes_takes hv hl

theorem Wire.bytes_value {bs : List UInt8} (h : bs.length < 2 ^ 32) : WireValue 2 (Wire.bytes bs) := by
  obtain ⟨hv, hl⟩ := Wire.length_grammar h
  exact .delimited hv hl

/-- The key of a field number below `2^29` holds the number and the wire type. -/
theorem Wire.key_grammar {number : Int} {w : Nat} (low : 0 ≤ number) (high : number < 2 ^ 29)
    (hw : w < 8) : Varint 10 (Wire.key number w) (8 * number.toNat + w) := by
  have h₁ : Wire.reduce 32 (8 * number) = 2 ^ 3 * number.toNat := by
    have := Wire.reduce_of_nonneg (w := 32) (n := 8 * number) (by omega) (by omega)
    omega
  have h₂ : Wire.reduce 32 w = w := by
    have := Wire.reduce_of_nonneg (w := 32) (n := w) (by omega) (by omega)
    omega
  rw [Wire.key, h₁, h₂, ← Nat.two_pow_add_eq_or_of_lt (by omega)]
  exact Wire.varint_word (by omega)

/-! ## Fixed widths -/

theorem Wire.length_littleEndian : ∀ width n, (Wire.littleEndian width n).length = width
  | 0, _ => rfl
  | width + 1, n => by rw [Wire.littleEndian, List.length_cons, Wire.length_littleEndian width]

theorem Reader.ofLittleEndian_littleEndian : ∀ {w n : Nat}, n < 256 ^ w →
    Reader.ofLittleEndian (Wire.littleEndian w n) = n
  | 0, n, h => by
    simp only [Nat.pow_zero] at h
    obtain rfl : n = 0 := by omega
    rfl
  | w + 1, n, h => by
    rw [Nat.pow_succ] at h
    rw [Wire.littleEndian, Reader.ofLittleEndian,
      Reader.ofLittleEndian_littleEndian (w := w) (n := n / 256) (by omega), UInt8.toNat_ofNat']
    omega

theorem Wire.littleEndian_takes {w n : Nat} (h : n < 256 ^ w) :
    Takes (Reader.fixed w) (Wire.littleEndian w n) n := by
  have ht := (Reader.take_takes (Wire.littleEndian w n)).map (f := Reader.ofLittleEndian)
  rwa [Wire.length_littleEndian, Reader.ofLittleEndian_littleEndian h] at ht

/-! ## Signs -/

/-- The two's complement pattern of a number gives the number back. -/
theorem Reader.signed_reduce {w : Nat} {n : Int} (low : -(2 ^ w : Nat) ≤ n) (high : n < (2 ^ w : Nat)) :
    Reader.signed (w + 1) (Wire.reduce (w + 1) n) = n := by
  have hp : 2 ^ (w + 1) = 2 * 2 ^ w := by rw [Nat.pow_succ]; omega
  simp only [Reader.signed, Nat.pow_eq, Nat.add_sub_cancel, hp]
  by_cases hn : 0 ≤ n
  · have hr := Wire.reduce_of_nonneg (w := w + 1) hn (by omega)
    rw [if_pos (by omega)]
    exact hr
  · have hr := Wire.reduce_of_neg (w := w + 1) (n := n) (by omega) (by omega)
    rw [hp] at hr
    rw [if_neg (by omega)]
    omega

/-- Flipping all bits of a width. -/
theorem xor_ones {w n : Nat} (h : n < 2 ^ w) : n ^^^ (2 ^ w - 1) = 2 ^ w - (n + 1) := by
  refine Nat.eq_of_testBit_eq fun i => ?_
  rw [Nat.testBit_two_pow_sub_succ h, Nat.testBit_xor, Nat.testBit_two_pow_sub_one]
  rcases Nat.lt_or_ge i w with hi | hi
  · simp only [hi, decide_true, Bool.xor_true, Bool.true_and]
  · have hn : n < 2 ^ i := Nat.lt_of_lt_of_le h (Nat.pow_le_pow_right (by omega) hi)
    simp [Nat.testBit_lt_two_pow hn, Nat.not_lt.mpr hi]

theorem Wire.zigzag_of_nonneg {w : Nat} {n : Int} (h₀ : 0 ≤ n) (high : n < (2 ^ w : Nat)) :
    (Wire.zigzag (w + 1) n : Int) = 2 * n := by
  have hp : 2 ^ (w + 1) = 2 * 2 ^ w := by rw [Nat.pow_succ]; omega
  have hd : n / (Nat.pow 2 (w + 1 - 1) : Nat) = 0 := by
    rw [Nat.pow_eq, Nat.add_sub_cancel]
    exact Int.ediv_eq_zero_of_lt h₀ high
  have hz : Wire.reduce (w + 1) 0 = 0 := by simp [Wire.reduce]
  rw [Wire.zigzag, hd, hz, Nat.xor_zero]
  exact Wire.reduce_of_nonneg (by omega) (by omega)

theorem Wire.zigzag_of_neg {w : Nat} {n : Int} (low : -(2 ^ w : Nat) ≤ n) (h : n < 0) :
    (Wire.zigzag (w + 1) n : Int) = -2 * n - 1 := by
  have hp : 2 ^ (w + 1) = 2 * 2 ^ w := by rw [Nat.pow_succ]; omega
  have hpos := Nat.two_pow_pos w
  have hd : n / (Nat.pow 2 (w + 1 - 1) : Nat) = -1 := by
    rw [Nat.pow_eq, Nat.add_sub_cancel, Int.ediv_eq_iff_of_pos (by omega)]
    omega
  have h₁ := Wire.reduce_of_neg (w := w + 1) (n := 2 * n) (by omega) (by omega)
  have h₂ := Wire.reduce_of_neg (w := w + 1) (n := -1) (by omega) (by omega)
  have h₂' : Wire.reduce (w + 1) (-1) = 2 ^ (w + 1) - 1 := by omega
  rw [Wire.zigzag, hd, h₂', xor_ones (by omega)]
  omega

/-- The zigzag pattern of a number fits its width and gives the number back. -/
theorem Reader.unzigzag_zigzag {w : Nat} {n : Int} (low : -(2 ^ w : Nat) ≤ n) (high : n < (2 ^ w : Nat)) :
    Wire.zigzag (w + 1) n < 2 ^ (w + 1) ∧ Reader.unzigzag (Wire.zigzag (w + 1) n) = n := by
  have hp : 2 ^ (w + 1) = 2 * 2 ^ w := by rw [Nat.pow_succ]; omega
  have hz : (Wire.zigzag (w + 1) n : Int) = 2 * n ∨ (Wire.zigzag (w + 1) n : Int) = -2 * n - 1 := by
    by_cases hn : 0 ≤ n
    · exact .inl (Wire.zigzag_of_nonneg hn high)
    · exact .inr (Wire.zigzag_of_neg low (by omega))
  refine ⟨by omega, ?_⟩
  simp only [Reader.unzigzag]
  split <;> omega

/-! ## Kinds -/

/-- Equal numbers, texts and bytes are equal to themselves. -/
theorem Value.sameKey_int (n : Int) : (Value.int n).sameKey (.int n) = true := by
  simp [Value.sameKey, Value.string?, Value.numberEqual, Value.integer?]

theorem Wire.reduce_lt (width : Nat) (n : Int) : Wire.reduce width n < 2 ^ width := by
  simp only [Wire.reduce, Nat.pow_eq]
  have hp : (0 : Int) < (2 ^ width : Nat) := by exact_mod_cast Nat.two_pow_pos width
  have := Int.emod_lt_of_pos n hp
  have := Int.emod_nonneg n (Int.ne_of_gt hp)
  omega

/-- What 32 bits keep of the pattern of `int32`, which has 64 bits for a negative number. -/
theorem Wire.int32_mod (n : Int) :
    (if n < 0 then Wire.reduce 64 n else Wire.reduce 32 n) % 2 ^ 32 = Wire.reduce 32 n := by
  simp only [Wire.reduce, Nat.pow_eq]
  split <;> omega

theorem Wire.int32_varint (n : Int) :
    Varint 10 (Wire.int32 n) (if n < 0 then Wire.reduce 64 n else Wire.reduce 32 n) := by
  have hl32 := Wire.reduce_lt 32 n
  have hl64 := Wire.reduce_lt 64 n
  exact Wire.varint_word (by split <;> omega)

/-- The numbers that a width with a sign has room for. -/
theorem Wire.inSignedRange_iff {w : Nat} {n : Int} :
    Wire.inSignedRange (w + 1) n = true ↔ -(2 ^ w : Nat) ≤ n ∧ n < (2 ^ w : Nat) := by
  simp only [Wire.inSignedRange, Nat.pow_eq, Nat.add_sub_cancel, Bool.and_eq_true, decide_eq_true_eq]

/-- An integer in the range of its kind is written and read back as it is. -/
theorem Scalar.write_int_takes {k : Scalar} {n : Int} (h : k.InRange n) :
    ∃ bs, k.write (.int n) = ⟨bs, none⟩ ∧ Takes (Reader.scalar k) bs (.int n) ∧
      WireValue k.wireType.number bs := by
  have h32 : ∀ {m : Nat}, m < 2 ^ 64 → Takes Reader.uint32 (Wire.varint m) (m % Nat.pow 2 32) :=
    fun hm => Reader.uint32_takes (Wire.varint_word hm)
  have h64 : ∀ {m : Nat}, m < 2 ^ 64 → Takes Reader.uint64 (Wire.varint m) (m % Nat.pow 2 64) :=
    fun hm => (Reader.varintUpTo_takes (Wire.varint_word hm)).map
  have hw : ∀ {m : Nat}, m < 2 ^ 64 → WireValue 0 (Wire.varint m) :=
    fun hm => .varint (Wire.varint_word hm)
  have hl32 := Wire.reduce_lt 32 n
  have hl64 := Wire.reduce_lt 64 n
  cases k with
  | uint32 =>
    obtain ⟨low, high⟩ := h
    have hr := Wire.reduce_of_nonneg (w := 32) low (by omega)
    refine ⟨_, rfl, (h32 (by omega)).map.giving ?_, hw (by omega)⟩
    rw [Nat.pow_eq, Nat.mod_eq_of_lt hl32, hr]
  | uint64 =>
    obtain ⟨low, high⟩ := h
    have hr := Wire.reduce_of_nonneg (w := 64) low (by omega)
    refine ⟨_, rfl, (h64 hl64).map.giving ?_, hw hl64⟩
    rw [Nat.pow_eq, Nat.mod_eq_of_lt hl64, hr]
  | int32 =>
    obtain ⟨low, high⟩ := h
    refine ⟨_, rfl, (Reader.uint32_takes (Wire.int32_varint n)).map.map.giving ?_, .varint (Wire.int32_varint n)⟩
    rw [Nat.pow_eq, Wire.int32_mod, Reader.signed_reduce (w := 31) (by omega) (by omega)]
  | int64 =>
    obtain ⟨low, high⟩ := h
    refine ⟨_, rfl, (h64 hl64).map.map.giving ?_, hw hl64⟩
    rw [Nat.pow_eq, Nat.mod_eq_of_lt hl64, Reader.signed_reduce (w := 63) (by omega) (by omega)]
  | sint32 =>
    obtain ⟨low, high⟩ := h
    obtain ⟨hz, hu⟩ : Wire.zigzag 32 n < 2 ^ 32 ∧ Reader.unzigzag (Wire.zigzag 32 n) = n :=
      Reader.unzigzag_zigzag (w := 31) (by omega) (by omega)
    refine ⟨_, rfl, (h32 (by omega)).map.map.giving ?_, hw (by omega)⟩
    rw [Nat.pow_eq, Nat.mod_eq_of_lt hz, hu]
  | sint64 =>
    obtain ⟨low, high⟩ := h
    obtain ⟨hz, hu⟩ : Wire.zigzag 64 n < 2 ^ 64 ∧ Reader.unzigzag (Wire.zigzag 64 n) = n :=
      Reader.unzigzag_zigzag (w := 63) (by omega) (by omega)
    refine ⟨_, rfl, (h64 hz).map.map.giving ?_, hw hz⟩
    rw [Nat.pow_eq, Nat.mod_eq_of_lt hz, hu]
  | fixed32 =>
    obtain ⟨low, high⟩ := h
    have hr := Wire.reduce_of_nonneg (w := 32) low (by omega)
    refine ⟨_, rfl, (Wire.littleEndian_takes (w := 4) (by omega)).map.giving ?_,
      .fixed32 (Wire.length_littleEndian _ _)⟩
    rw [hr]
  | fixed64 =>
    obtain ⟨low, high⟩ := h
    have hr := Wire.reduce_of_nonneg (w := 64) low (by omega)
    refine ⟨_, rfl, (Wire.littleEndian_takes (w := 8) (by omega)).map.giving ?_,
      .fixed64 (Wire.length_littleEndian _ _)⟩
    rw [hr]
  | sfixed32 =>
    obtain ⟨low, high⟩ := h
    have hr : Wire.inSignedRange 32 n = true := Wire.inSignedRange_iff.mpr ⟨by omega, by omega⟩
    refine ⟨Wire.littleEndian 4 (Wire.reduce 32 n), ?_,
      (Wire.littleEndian_takes (w := 4) (by omega)).map.giving ?_,
      .fixed32 (Wire.length_littleEndian _ _)⟩
    · simp only [Scalar.write, Wire.ranged, Value.integer?, hr, if_true, Wire.Written.ofExcept]
    · rw [Reader.signed_reduce (w := 31) (by omega) (by omega)]
  | sfixed64 =>
    obtain ⟨low, high⟩ := h
    have hr : Wire.inSignedRange 64 n = true := Wire.inSignedRange_iff.mpr ⟨by omega, by omega⟩
    refine ⟨Wire.littleEndian 8 (Wire.reduce 64 n), ?_,
      (Wire.littleEndian_takes (w := 8) (by omega)).map.giving ?_,
      .fixed64 (Wire.length_littleEndian _ _)⟩
    · simp only [Scalar.write, Wire.ranged, Value.integer?, hr, if_true, Wire.Written.ofExcept]
    · rw [Reader.signed_reduce (w := 63) (by omega) (by omega)]
  | double | float | bool | string | bytes => cases h

/-- A value of a kind is written as a value of its wire type and read back as an equal value. -/
theorem Scalar.write_takes {k : Scalar} {v : Value} (h : k.Holds v) :
    ∃ bs v', k.write v = ⟨bs, none⟩ ∧ Takes (Reader.scalar k) bs v' ∧ v'.sameKey v = true ∧
      (k ≠ .float → v' = v) ∧ WireValue k.wireType.number bs := by
  cases h with
  | @integer k n range =>
    obtain ⟨bs, hb, ht, hw⟩ := Scalar.write_int_takes range
    exact ⟨bs, _, hb, ht, Value.sameKey_int n, fun _ => rfl, hw⟩
  | truth b =>
    have hn : (if b then 1 else 0) < 2 ^ 64 := by cases b <;> decide
    refine ⟨_, .bool b, rfl,
      (Reader.varintUpTo_takes (Wire.varint_word hn)).map.map.giving (by cases b <;> rfl), ?_,
      fun _ => rfl, .varint (Wire.varint_word hn)⟩
    cases b <;> rfl
  | @text s short =>
    refine ⟨_, .text s, rfl, ((Wire.bytes_takes short).bind_nil ?_).map, ?_, fun _ => rfl,
      Wire.bytes_value short⟩
    · rw [Text.decodeUtf8?_encodeUtf8]
      exact Takes.pure s
    · simp [Value.sameKey, Value.string?]
  | @octets bs short =>
    refine ⟨_, .bytes bs, rfl, (Wire.bytes_takes short).map, ?_, fun _ => rfl,
      Wire.bytes_value short⟩
    simp [Value.sameKey]
  | @double x number =>
    have hx : x.word < 256 ^ 8 := by
      have := x.bits.toNat_lt
      simp only [Binary64.word]
      omega
    refine ⟨_, .float x, rfl, ((Wire.littleEndian_takes hx).map).map.giving ?_, ?_,
      fun _ => rfl, .fixed64 (Wire.length_littleEndian _ _)⟩
    · simp [Binary64.word]
    · simp [Value.sameKey, Value.string?, Value.numberEqual, Binary64.equal, number]
  | @single x w pack unpack =>
    have hw : w.toNat < 256 ^ 4 := w.toNat_lt
    refine ⟨Wire.littleEndian 4 w.toNat, .float (Binary64.ofSingle w), ?_,
      ((Wire.littleEndian_takes hw).map).map.giving ?_, ?_, fun hk => absurd rfl hk,
      .fixed32 (Wire.length_littleEndian _ _)⟩
    · simp only [Scalar.write, Wire.floating, bind, Except.bind, Wire.single, pack,
        Wire.Written.ofExcept]
    · simp
    · simpa [Value.sameKey, Value.string?, Value.numberEqual] using unpack

end ProtoBind
