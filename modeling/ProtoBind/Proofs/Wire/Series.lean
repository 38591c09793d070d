/-
Scalars in a row, and integers of any size.

Values that are written one behind the other are read back one behind the
other, whatever the writer held before and whatever follows
(`readSeries_writeSeries`). An integer outside the range of its kind is read
back as its two's complement reduction (`write_reduced`), and zigzag patterns
number the signed range of a width (`zigzag_bijOn`).
-/
import Mathlib.Data.Int.ConditionallyCompleteOrder
import Mathlib.Data.Set.Function
import Mathlib.Order.Interval.Set.Defs
import Mathlib.Tactic.Positivity
import ProtoBind.Proofs.Wire.Scalars

namespace ProtoBind

/-! ## Series -/

/-- What a writer holds after it was given values in order, up to the first that it refuses. -/
def Wire.writeSeries (held : List UInt8) : List (Scalar × Value) → Wire.Written
  | [] => ⟨held, none⟩
  | (k, v) :: rest =>
    match k.write v with
    | ⟨bs, none⟩ => writeSeries (held ++ bs) rest
    | ⟨bs, some e⟩ => ⟨held ++ bs, some e⟩

/-- Values of these kinds, read in order. -/
def Reader.readSeries (kinds : List Scalar) : Read (List Value) := kinds.mapM Reader.scalar

/-- A value that its kind can hold and that is read back itself. Of a `float`, which the wire narrows, only an equal
number is. -/
def Scalar.Keeps (k : Scalar) (v : Value) : Prop := k.Holds v ∧ k ≠ .float

/-- What is written of a series is read back as the series, by induction on what is left to write. -/
theorem Wire.writeSeries_takes : ∀ {series : List (Scalar × Value)} (held : List UInt8),
    (∀ p ∈ series, p.1.Keeps p.2) → ∃ bs, Wire.writeSeries held series = ⟨held ++ bs, none⟩ ∧
      Takes (Reader.readSeries (series.map Prod.fst)) bs (series.map Prod.snd)
  | [], held, _ => by
    refine ⟨[], by rw [List.append_nil, Wire.writeSeries], ?_⟩
    rw [Reader.readSeries, List.map_nil, List.mapM_nil]
    exact .pure []
  | (k, v) :: rest, held, h => by
    obtain ⟨hholds, hfloat⟩ := h (k, v) List.mem_cons_self
    obtain ⟨bs, v', hwrite, htakes, -, hsame, -⟩ := Scalar.write_takes hholds
    obtain rfl : v' = v := hsame hfloat
    obtain ⟨cs, hrest, hreads⟩ := writeSeries_takes (held ++ bs) fun p hp => h p (List.mem_cons_of_mem _ hp)
    refine ⟨bs ++ cs, ?_, ?_⟩
    · rw [Wire.writeSeries, hwrite, ← List.append_assoc]
      exact hrest
    · rw [Reader.readSeries, List.map_cons, List.mapM_cons]
      exact htakes.bind (hreads.map (f := (v' :: ·)))

/-! ## Integers of any size -/

/-- The integer is written, and another one read where it was written. -/
def Scalar.ReadsAs (k : Scalar) (n m : Int) : Prop :=
  ∃ bs, k.write (.int n) = ⟨bs, none⟩ ∧ Takes (Reader.scalar k) bs (.int m)

theorem Wire.reduce_eq (w : Nat) (n : Int) : (Wire.reduce w n : Int) = n % 2 ^ w := by
  rw [Wire.reduce, Nat.pow_eq, Int.toNat_of_nonneg (Int.emod_nonneg n (by positivity))]
  norm_cast

/-- The number of a pattern with a sign is the balanced remainder. -/
theorem Reader.signed_reduce_eq (w : Nat) (n : Int) :
    Reader.signed (w + 1) (Wire.reduce (w + 1) n) = n.bmod (2 ^ (w + 1)) := by
  have hp : 2 ^ (w + 1) = 2 * 2 ^ w := by rw [Nat.pow_succ, Nat.mul_comm]
  have hr : (Wire.reduce (w + 1) n : Int) = n % (2 ^ (w + 1) : Nat) := by rw [Wire.reduce_eq]; norm_cast
  rw [Reader.signed, Int.bmod_def, ← hr, Nat.pow_eq, Nat.pow_eq, Nat.add_sub_cancel, hp]
  split <;> split <;> omega

/-- **An integer of any size is read back as its reduction** to the width of its kind: the remainder for a kind without
signs, the balanced remainder for one with them. -/
theorem Scalar.write_reduced (n : Int) :
    Scalar.uint32.ReadsAs n (n % 2 ^ 32) ∧ Scalar.int32.ReadsAs n (n.bmod (2 ^ 32)) ∧
    Scalar.uint64.ReadsAs n (n % 2 ^ 64) ∧ Scalar.int64.ReadsAs n (n.bmod (2 ^ 64)) ∧
    Scalar.fixed32.ReadsAs n (n % 2 ^ 32) ∧ Scalar.fixed64.ReadsAs n (n % 2 ^ 64) := by
  have hl32 := Wire.reduce_lt 32 n
  have hl64 := Wire.reduce_lt 64 n
  have h32 : Takes Reader.uint32 (Wire.uint32 n) (Wire.reduce 32 n) :=
    (Reader.uint32_takes (Wire.varint_word (by omega))).giving (Nat.mod_eq_of_lt hl32)
  have h64 : Takes Reader.uint64 (Wire.uint64 n) (Wire.reduce 64 n) :=
    (Reader.varintUpTo_takes (Wire.varint_word hl64)).map.giving (Nat.mod_eq_of_lt hl64)
  have hint32 : Takes Reader.uint32 (Wire.int32 n) (Wire.reduce 32 n) :=
    (Reader.uint32_takes (Wire.int32_varint n)).giving (Wire.int32_mod n)
  rw [← Wire.reduce_eq, ← Wire.reduce_eq, ← Reader.signed_reduce_eq 31, ← Reader.signed_reduce_eq 63]
  exact ⟨⟨_, rfl, h32.map⟩, ⟨_, rfl, hint32.map.map⟩, ⟨_, rfl, h64.map⟩, ⟨_, rfl, h64.map.map⟩,
    ⟨_, rfl, (Wire.littleEndian_takes (w := 4) hl32).map⟩, ⟨_, rfl, (Wire.littleEndian_takes (w := 8) hl64).map⟩⟩

/-- A number of 32 bits is read back by the reader of 64, as its sign is extended. -/
theorem Wire.int32_takes_int64 {n : Int} (h : Scalar.int32.InRange n) :
    Takes Reader.int64 (Wire.int32 n) n := by
  obtain ⟨low, high⟩ := h
  refine (Reader.varintUpTo_takes (Wire.int32_varint n)).map.map.giving ?_
  have hwide : (if n < 0 then Wire.reduce 64 n else Wire.reduce 32 n) = Wire.reduce 64 n := by
    split
    · rfl
    · have h₁ := Wire.reduce_of_nonneg (w := 32) (n := n) (by omega) (by omega)
      have h₂ := Wire.reduce_of_nonneg (w := 64) (n := n) (by omega) (by omega)
      omega
  rw [hwide, Nat.pow_eq, Nat.mod_eq_of_lt (Wire.reduce_lt 64 n), Reader.signed_reduce (w := 63) (by omega) (by omega)]

/-! ## Zigzag patterns -/

/-- A pattern is that of the number that it means. -/
theorem Wire.zigzag_unzigzag {w m : Nat} (h : m < 2 ^ (w + 1)) :
    (-(2 ^ w : Nat) ≤ Reader.unzigzag m ∧ Reader.unzigzag m < (2 ^ w : Nat)) ∧
      Wire.zigzag (w + 1) (Reader.unzigzag m) = m := by
  have hp : 2 ^ (w + 1) = 2 * 2 ^ w := by rw [Nat.pow_succ, Nat.mul_comm]
  unfold Reader.unzigzag
  split
  next heven =>
    have hz := Wire.zigzag_of_nonneg (w := w) (n := (m / 2 : Nat)) (by omega) (by omega)
    exact ⟨by omega, by omega⟩
  next hodd =>
    have hz := Wire.zigzag_of_neg (w := w) (n := -(m / 2 : Nat) - 1) (by omega) (by omega)
    exact ⟨by omega, by omega⟩

/-- The integers of a width with a sign. -/
def Wire.signedRange (w : Nat) : Set Int := Set.Ico (-2 ^ (w - 1)) (2 ^ (w - 1))

/-- The patterns of a width. -/
def Wire.patterns (w : Nat) : Set Nat := Set.Iio (2 ^ w)

/-- **Zigzag patterns number the signed range**, and the number of a pattern is read off it. -/
theorem Wire.zigzag_bijOn (w : Nat) :
    Set.BijOn (Wire.zigzag (w + 1)) (Wire.signedRange (w + 1)) (Wire.patterns (w + 1)) ∧
    Set.BijOn Reader.unzigzag (Wire.patterns (w + 1)) (Wire.signedRange (w + 1)) ∧
    Set.InvOn Reader.unzigzag (Wire.zigzag (w + 1)) (Wire.signedRange (w + 1)) (Wire.patterns (w + 1)) := by
  have hrange {n : Int} : n ∈ Wire.signedRange (w + 1) ↔ -(2 ^ w : Nat) ≤ n ∧ n < (2 ^ w : Nat) := by
    rw [Wire.signedRange, Nat.add_sub_cancel, Set.mem_Ico]
    norm_cast
  have hzigzag : Set.MapsTo (Wire.zigzag (w + 1)) (Wire.signedRange (w + 1)) (Wire.patterns (w + 1)) := fun n hn =>
    (Reader.unzigzag_zigzag (hrange.mp hn).1 (hrange.mp hn).2).1
  have hunzigzag : Set.MapsTo Reader.unzigzag (Wire.patterns (w + 1)) (Wire.signedRange (w + 1)) := fun m hm =>
    hrange.mpr (Wire.zigzag_unzigzag hm).1
  have hinv : Set.InvOn Reader.unzigzag (Wire.zigzag (w + 1)) (Wire.signedRange (w + 1)) (Wire.patterns (w + 1)) :=
    ⟨fun n hn => (Reader.unzigzag_zigzag (hrange.mp hn).1 (hrange.mp hn).2).2, fun m hm => (Wire.zigzag_unzigzag hm).2⟩
  exact ⟨hinv.bijOn hzigzag hunzigzag, hinv.symm.bijOn hunzigzag hzigzag, hinv⟩

/-! ## Round trip -/

/-- **Scalars come back as they were written, in any context.** Values that their kinds can hold, written in order to a
writer that holds any bytes and followed by any bytes, are given back by readers of the same kinds, which end right
behind the last. An integer of any size is read back as its two's complement reduction to the width and sign of its
kind; one in the range of `int32` is read back unchanged from it as `int64`; and the zigzag patterns of 32 and of 64
bits number the signed range, with inverse maps. -/
theorem scalars_round_trip {series : List (Scalar × Value)} (h : ∀ p ∈ series, p.1.Keeps p.2)
    (held tail : List UInt8) :
    (∃ bs, Wire.writeSeries held series = ⟨held ++ bs, none⟩ ∧
      (do
        Reader.skip held.length
        Reader.readSeries (series.map Prod.fst)) (Reader.ofBytes (held ++ bs ++ tail)) =
        .ok (series.map Prod.snd) ⟨(held ++ bs).length, tail⟩) ∧
    (∀ n : Int, Scalar.uint32.ReadsAs n (n % 2 ^ 32) ∧ Scalar.int32.ReadsAs n (n.bmod (2 ^ 32)) ∧
      Scalar.uint64.ReadsAs n (n % 2 ^ 64) ∧ Scalar.int64.ReadsAs n (n.bmod (2 ^ 64)) ∧
      Scalar.fixed32.ReadsAs n (n % 2 ^ 32) ∧ Scalar.fixed64.ReadsAs n (n % 2 ^ 64)) ∧
    (∀ n, Scalar.int32.InRange n → ∃ bs, Scalar.int32.write (.int n) = ⟨bs, none⟩ ∧
      Takes (Reader.scalar .int64) bs (.int n)) ∧
    ∀ w ∈ [32, 64], Set.BijOn (Wire.zigzag w) (Wire.signedRange w) (Wire.patterns w) ∧
      Set.BijOn Reader.unzigzag (Wire.patterns w) (Wire.signedRange w) ∧
      Set.InvOn Reader.unzigzag (Wire.zigzag w) (Wire.signedRange w) (Wire.patterns w) := by
  refine ⟨?_, Scalar.write_reduced, fun n hn => ⟨_, rfl, (Wire.int32_takes_int64 hn).map⟩, ?_⟩
  · obtain ⟨bs, hwrite, hreads⟩ := Wire.writeSeries_takes held h
    have hskip : Takes (Reader.skip held.length) held () := (Reader.take_takes held).map (f := fun _ => ())
    refine ⟨bs, hwrite, ?_⟩
    have hall := (hskip.bind (f := fun _ => Reader.readSeries (series.map Prod.fst)) hreads) 0 tail
    rwa [Nat.zero_add] at hall
  · simp only [List.forall_mem_cons, List.not_mem_nil, false_implies, implies_true, and_true]
    exact ⟨Wire.zigzag_bijOn 31, Wire.zigzag_bijOn 63⟩

/-- A value of each kind, those of numbers at the ends of their ranges. -/
def boundaries : List (Scalar × Value) :=
  [(.uint32, .int 4294967295), (.int32, .int (-2147483648)), (.sint32, .int (-2147483648)),
    (.uint64, .int 18446744073709551615), (.int64, .int (-1)), (.sint64, .int 9223372036854775807),
    (.fixed32, .int 0), (.sfixed32, .int (-1)), (.fixed64, .int 18446744073709551615),
    (.sfixed64, .int (-9223372036854775808)), (.bool, .bool true), (.bytes, .bytes [255, 0]), (.string, .text "\u00e9")]

/-- The ends of the ranges come back, behind a byte and before one. -/
theorem scalars_round_trip_boundaries : (∀ p ∈ boundaries, p.1.Keeps p.2) ∧
    ∃ bs, Wire.writeSeries [128] boundaries = ⟨[128] ++ bs, none⟩ ∧
      (do
        Reader.skip 1
        Reader.readSeries (boundaries.map Prod.fst)) (Reader.ofBytes ([128] ++ bs ++ [7])) =
        .ok (boundaries.map Prod.snd) ⟨([128] ++ bs).length, [7]⟩ := by
  have hkeeps : ∀ p ∈ boundaries, p.1.Keeps p.2 := by
    simp only [boundaries, List.forall_mem_cons, List.not_mem_nil, false_implies, implies_true, and_true]
    have hrange {k : Scalar} {n : Int} (h : k.InRange n) (hk : k ≠ .float) : k.Keeps (.int n) := ⟨.integer h, hk⟩
    refine ⟨hrange ?_ ?_, hrange ?_ ?_, hrange ?_ ?_, hrange ?_ ?_, hrange ?_ ?_, hrange ?_ ?_, hrange ?_ ?_,
      hrange ?_ ?_, hrange ?_ ?_, hrange ?_ ?_, ⟨.truth true, ?_⟩, ⟨.octets ?_, ?_⟩, ⟨.text ?_, ?_⟩⟩
    all_goals first | decide | exact ⟨by decide, by decide⟩
  exact ⟨hkeeps, (scalars_round_trip hkeeps [128] [7]).1⟩

end ProtoBind
