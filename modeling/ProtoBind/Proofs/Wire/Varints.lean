/-
Varints, accepted and written.

Every buffer is read at every place as far as its first byte without the high
bit, if that is one of the next ten (`Reader.varintUpTo_eq`). Among the
encodings of a number the written one is the only shortest
(`Varint.shortest`), and ten bytes hold the numbers below `2^70`
(`Varint.lt`, `Wire.varint_grammar`).
-/
import Mathlib.Data.Nat.Digits.Defs
import ProtoBind.Proofs.Wire.Scalars

namespace ProtoBind

/-- The byte ends a varint: its high bit is not set. -/
def endsVarint (b : UInt8) : Bool := b.toNat < 128

/-- The number that bytes give at seven bits each, the lowest first. -/
def base128 (bs : List UInt8) : Nat := Nat.ofDigits 128 (bs.map fun b => b.toNat % 128)

/-- The bytes encode the number: only the last of them ends a varint, and they give the number at seven bits each. -/
structure Encodes (bs : List UInt8) (n : Nat) : Prop where
  more : ∀ b ∈ bs.dropLast, endsVarint b = false
  last : ∃ b, bs.getLast? = some b ∧ endsVarint b = true
  value : base128 bs = n

/-- No other encoding of the number is as short. -/
def Shortest (bs : List UInt8) (n : Nat) : Prop :=
  Encodes bs n ∧ ∀ cs, Encodes cs n → bs.length ≤ cs.length

theorem base128_cons (b : UInt8) (bs : List UInt8) : base128 (b :: bs) = b.toNat % 128 + 128 * base128 bs := by
  rw [base128, List.map_cons, Nat.ofDigits_cons]
  rfl

theorem base128_last {b : UInt8} (low : b.toNat < 128) : base128 [b] = b.toNat := by
  rw [base128_cons]
  exact Nat.mod_eq_of_lt low

theorem base128_more {b : UInt8} (high : ¬ b.toNat < 128) (bs : List UInt8) :
    base128 (b :: bs) = b.toNat - 128 + 128 * base128 bs := by
  have hb := b.toNat_lt
  rw [base128_cons]
  omega

/-! ## The grammar -/

/-- The grammar of varints gives the encodings of numbers. -/
theorem varint_iff_encodes {limit : Nat} {bs : List UInt8} {n : Nat} :
    Varint limit bs n ↔ bs.length ≤ limit ∧ Encodes bs n := by
  constructor
  · intro h
    induction h with
    | @last limit b low =>
      exact ⟨Nat.succ_le_succ (Nat.zero_le limit), nofun, ⟨b, rfl, decide_eq_true low⟩, base128_last low⟩
    | @more limit b bs n high rest ih =>
      obtain ⟨hlen, hmore, ⟨z, hz, hends⟩, hvalue⟩ := ih
      refine ⟨Nat.succ_le_succ hlen, ?_, ⟨z, ?_, hends⟩, ?_⟩
      · rw [List.dropLast_cons_of_ne_nil rest.ne_nil]
        exact List.forall_mem_cons.mpr ⟨decide_eq_false high, hmore⟩
      · rw [List.getLast?_cons, hz, Option.getD_some]
      · rw [base128_more high, hvalue]
  · rintro ⟨hlen, hmore, ⟨z, hz, hends⟩, rfl⟩
    induction bs generalizing limit with
    | nil => cases hz
    | cons b bs ih =>
      obtain ⟨limit, rfl⟩ : ∃ k, limit = k + 1 := ⟨limit - 1, by rw [List.length_cons] at hlen; omega⟩
      cases bs with
      | nil =>
        obtain rfl : b = z := by simpa using hz
        have low : b.toNat < 128 := of_decide_eq_true hends
        rw [base128_last low]
        exact .last low
      | cons c bs =>
        rw [List.dropLast_cons_of_ne_nil (List.cons_ne_nil c bs), List.forall_mem_cons] at hmore
        have high : ¬ b.toNat < 128 := of_decide_eq_false hmore.1
        rw [base128_more high]
        refine .more high (ih (Nat.le_of_succ_le_succ hlen) hmore.2 ?_)
        rwa [List.getLast?_cons_cons] at hz

theorem Encodes.varint {bs : List UInt8} {n : Nat} (h : Encodes bs n) : Varint bs.length bs n :=
  varint_iff_encodes.mpr ⟨Nat.le_refl _, h⟩

theorem Varint.encodes {limit : Nat} {bs : List UInt8} {n : Nat} (h : Varint limit bs n) : Encodes bs n :=
  (varint_iff_encodes.mp h).2

/-- Each byte gives seven bits. -/
theorem Varint.lt {limit : Nat} {bs : List UInt8} {n : Nat} (h : Varint limit bs n) : n < 128 ^ limit := by
  induction h with
  | @last limit b low =>
    have := Nat.one_le_pow limit 128 (by decide)
    rw [Nat.pow_succ]
    omega
  | @more limit b bs n high rest ih =>
    have hb := b.toNat_lt
    rw [Nat.pow_succ]
    omega

/-! ## Reading -/

/-- What reading a varint of at most `limit` bytes comes to. -/
def Reader.varintResult (limit : Nat) (r : Reader) : EStateM.Result WireFault Reader Nat :=
  match (r.rest.take limit).findIdx? endsVarint with
  | some i => .ok (base128 (r.rest.take (i + 1))) ⟨r.pos + (i + 1), r.rest.drop (i + 1)⟩
  | none =>
    if limit ≤ r.rest.length then .error .endlessVarint ⟨r.pos + limit, r.rest.drop limit⟩
    else .error (.outOfRange r.length 1 r.length) ⟨r.length, []⟩

/-- A byte that does not end a varint stands before what is read behind it. -/
theorem Reader.varintUpTo_more {limit pos : Nat} {b : UInt8} {rest : List UInt8} (high : endsVarint b = false) :
    varintUpTo (limit + 1) ⟨pos, b :: rest⟩ =
      (do return b.toNat - 128 + 128 * (← varintUpTo limit)) ⟨pos + 1, rest⟩ := by
  have hbyte : byte ⟨pos, b :: rest⟩ = .ok b ⟨pos + 1, rest⟩ := rfl
  rw [varintUpTo, bind_of_ok hbyte, if_neg (of_decide_eq_false high)]

/-- **Reading a varint**, by recursion on the number of bytes that it may take. -/
theorem Reader.varintUpTo_eq : ∀ (limit : Nat) (r : Reader), varintUpTo limit r = varintResult limit r
  | 0, ⟨pos, rest⟩ => rfl
  | limit + 1, ⟨pos, []⟩ => rfl
  | limit + 1, ⟨pos, b :: rest⟩ => by
    unfold varintResult
    dsimp only
    rw [List.take_succ_cons, List.findIdx?_cons]
    cases hb : endsVarint b with
    | true =>
      have low : b.toNat < 128 := of_decide_eq_true hb
      have hlast : Varint (limit + 1) [b] b.toNat := .last low
      have hread := Reader.varintUpTo_takes hlast pos rest
      simpa [base128_last low] using hread
    | false =>
      have hnext := varintUpTo_eq limit ⟨pos + 1, rest⟩
      have hpos (k : Nat) : pos + 1 + k = pos + (k + 1) := by omega
      have hlen : Reader.length ⟨pos, b :: rest⟩ = Reader.length ⟨pos + 1, rest⟩ := (hpos rest.length).symm
      unfold varintResult at hnext
      dsimp only at hnext
      rw [varintUpTo_more hb, hlen, if_neg Bool.false_ne_true]
      cases hfind : (rest.take limit).findIdx? endsVarint with
      | some i =>
        rw [hfind] at hnext
        rw [bind_of_ok hnext, Option.map_some]
        dsimp only
        rw [List.take_succ_cons, List.drop_succ_cons, base128_more (of_decide_eq_false hb), ← hpos (i + 1)]
        rfl
      | none =>
        rw [hfind] at hnext
        rw [Option.map_none]
        dsimp only at hnext ⊢
        rw [List.length_cons, List.drop_succ_cons, ← hpos limit]
        by_cases hlimit : limit ≤ rest.length
        · rw [if_pos hlimit] at hnext
          rw [if_pos (Nat.succ_le_succ hlimit)]
          exact bind_eq_error.mpr (.inl hnext)
        · rw [if_neg hlimit] at hnext
          rw [if_neg fun h => hlimit (Nat.le_of_succ_le_succ h)]
          exact bind_eq_error.mpr (.inl hnext)

/-! ## Writing -/

/-- **The written encoding is the shortest**, and the only one of its length: by induction on any other, a byte that
ends it with no bits could be left out. -/
theorem Varint.shortest {limit : Nat} {bs : List UInt8} {n : Nat} (h : Varint limit bs n) :
    (Wire.varint n).length ≤ bs.length ∧ (bs.length ≤ (Wire.varint n).length → bs = Wire.varint n) := by
  induction h with
  | @last limit b low =>
    rw [Wire.varint, if_pos low]
    have hb : UInt8.ofNat b.toNat = b := by simp
    rw [hb]
    exact ⟨Nat.le_refl 1, fun _ => rfl⟩
  | @more limit b bs n high rest ih =>
    have hb := b.toNat_lt
    have hpos := List.length_pos_iff.mpr rest.ne_nil
    by_cases hn : n = 0
    · -- the bits of the first byte are all there is
      subst hn
      rw [Wire.varint, if_pos (by omega)]
      simp only [List.length_cons, List.length_nil]
      exact ⟨by omega, fun h => by omega⟩
    · have hmod : (b.toNat - 128 + 128 * n) % 128 + 128 = b.toNat := by omega
      have hdiv : (b.toNat - 128 + 128 * n) / 128 = n := by omega
      have hbyte : UInt8.ofNat b.toNat = b := by simp
      rw [Wire.varint, if_neg (by omega), hmod, hdiv, hbyte, List.length_cons, List.length_cons]
      exact ⟨Nat.succ_le_succ ih.1, fun h => congrArg (b :: ·) (ih.2 (Nat.le_of_succ_le_succ h))⟩

/-- Every number is written as a varint. -/
theorem Wire.varint_encodes (n : Nat) : Encodes (Wire.varint n) n :=
  (Wire.varint_grammar (Nat.lt_trans n.lt_succ_self (Nat.lt_pow_self (by decide)))).encodes

/-- **The written encoding is the unique shortest one.** -/
theorem shortest_iff {bs : List UInt8} {n : Nat} : Shortest bs n ↔ bs = Wire.varint n := by
  constructor
  · rintro ⟨hbs, hleast⟩
    exact hbs.varint.shortest.2 (hleast _ (Wire.varint_encodes n))
  · rintro rfl
    exact ⟨Wire.varint_encodes n, fun cs hcs => hcs.varint.shortest.1⟩

/-- The last byte that is written has bits, unless the number is zero. -/
theorem Wire.varint_getLast (n : Nat) : (Wire.varint n).getLast? = some 0 ↔ n = 0 := by
  induction n using Wire.varint.induct with
  | case1 n hn =>
    rw [Wire.varint, if_pos hn, List.getLast?_singleton, Option.some.injEq, ← UInt8.toNat_inj, UInt8.toNat_ofNat']
    show n % 256 = 0 ↔ n = 0
    omega
  | case2 n hn ih =>
    have hne : Wire.varint (n / 128) ≠ [] := (Wire.varint_encodes _).varint.ne_nil
    rw [Wire.varint, if_neg hn, List.getLast?_cons_of_ne_nil hne, ih]
    omega

/-- **A written number is read back when ten bytes hold it**, and else there is no end among the first ten. -/
theorem Reader.varint_written (n pos : Nat) (tail : List UInt8) : Reader.varint ⟨pos, Wire.varint n ++ tail⟩ =
    if n < 2 ^ 70 then .ok n ⟨pos + (Wire.varint n).length, tail⟩
    else .error .endlessVarint ⟨pos + 10, (Wire.varint n ++ tail).drop 10⟩ := by
  have hencodes := Wire.varint_encodes n
  by_cases hn : n < 2 ^ 70
  · rw [if_pos hn]
    exact Reader.varintUpTo_takes (Wire.varint_grammar (l := 9) (by omega)) pos tail
  · have hlong : 10 < (Wire.varint n).length := by
      by_contra hshort
      have hlt := (varint_iff_encodes.mpr ⟨Nat.not_lt.mp hshort, hencodes⟩).lt
      omega
    have hnone : ((Wire.varint n ++ tail).take 10).findIdx? endsVarint = none := by
      rw [List.findIdx?_eq_none_iff, List.take_append_of_le_length (Nat.le_of_lt hlong)]
      refine fun b hb => hencodes.more b ?_
      rw [List.dropLast_eq_take]
      exact (List.take_subset_take_left _ (by omega)) hb
    have hlength : 10 ≤ (Wire.varint n ++ tail).length := by
      rw [List.length_append]
      omega
    rw [if_neg hn, Reader.varint, Reader.varintUpTo_eq, Reader.varintResult]
    dsimp only
    rw [hnone]
    exact if_pos hlength

/-- What fails to be read as a varint, and the wording. -/
theorem Reader.varint_message {r r' : Reader} {e : WireFault} (h : Reader.varint r = .error e r') :
    e.message? = some (if 10 ≤ r.rest.length then "invalid varint encoding"
      else s!"index out of range: {r.length} + 1 > {r.length}") := by
  rw [Reader.varint, Reader.varintUpTo_eq, Reader.varintResult] at h
  split at h
  next => cases h
  next =>
    split at h
    next hlong =>
      cases h
      rw [if_pos hlong]
      rfl
    next hshort =>
      cases h
      have hone : " + 1 > " = " + " ++ (toString 1 ++ " > ") := by decide
      rw [if_neg hshort, hone]
      simp only [WireFault.message?, String.append_assoc]
      rfl

/-- What was read is never shorter than what is written of its value. -/
theorem Reader.varint_rewritten {r r' : Reader} {n : Nat} (h : Reader.varint r = .ok n r') :
    ∃ bs, r.Past bs r' ∧ Encodes bs n ∧ (Wire.varint n).length ≤ bs.length ∧
      ((Wire.varint n).length = bs.length ↔ Shortest bs n) := by
  obtain ⟨bs, hpast, hvarint⟩ := Reader.varintUpTo_sound h
  obtain ⟨hle, heq⟩ := hvarint.shortest
  refine ⟨bs, hpast, hvarint.encodes, hle, ?_⟩
  rw [shortest_iff]
  exact ⟨fun he => heq (Nat.le_of_eq he.symm), fun he => by rw [← he]⟩

/-- **Varints are accepted exactly, and written in their shortest form.** At every place of every buffer the bytes up
to the first that ends a varint are read, and give their number, if that byte is one of the next ten. Otherwise reading
fails: as an endless varint if there are ten bytes, and as out of range if there are fewer. Of every number the only
shortest encoding is written, whose last byte is zero only for zero; it is read back just when the number is below
`2^70`. Writing what was read takes no more bytes than were read, and as many just when those were the shortest. -/
theorem varint_exact :
    (∀ r : Reader, Reader.varint r =
      match (r.rest.take 10).findIdx? endsVarint with
      | some i => .ok (base128 (r.rest.take (i + 1))) ⟨r.pos + (i + 1), r.rest.drop (i + 1)⟩
      | none =>
        if 10 ≤ r.rest.length then .error .endlessVarint ⟨r.pos + 10, r.rest.drop 10⟩
        else .error (.outOfRange r.length 1 r.length) ⟨r.length, []⟩) ∧
    (∀ r e r', Reader.varint r = .error e r' →
      e.message? = some (if 10 ≤ r.rest.length then "invalid varint encoding"
        else s!"index out of range: {r.length} + 1 > {r.length}")) ∧
    (∀ n, (∀ bs, Shortest bs n ↔ bs = Wire.varint n) ∧ ((Wire.varint n).getLast? = some 0 ↔ n = 0) ∧
      ∀ pos tail, Reader.varint ⟨pos, Wire.varint n ++ tail⟩ =
        if n < 2 ^ 70 then .ok n ⟨pos + (Wire.varint n).length, tail⟩
        else .error .endlessVarint ⟨pos + 10, (Wire.varint n ++ tail).drop 10⟩) ∧
    ∀ r n r', Reader.varint r = .ok n r' →
      ∃ bs, r.Past bs r' ∧ Encodes bs n ∧ (Wire.varint n).length ≤ bs.length ∧
        ((Wire.varint n).length = bs.length ↔ Shortest bs n) :=
  ⟨Reader.varintUpTo_eq 10, fun _ _ _ h => Reader.varint_message h,
    fun n => ⟨fun _ => shortest_iff, Wire.varint_getLast n, Reader.varint_written n⟩,
    fun _ _ _ h => Reader.varint_rewritten h⟩

/-- Zero in two bytes is accepted, and written back in one. -/
example : Reader.varint ⟨0, [128, 0]⟩ = .ok 0 ⟨2, []⟩ ∧ Wire.varint 0 = [0] := ⟨rfl, by rw [Wire.varint]; rfl⟩

end ProtoBind
