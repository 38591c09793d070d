/-
How integers are written.

An integer is written in decimal, in hexadecimal after `0x`, or in octal after
a zero, with or without a sign (`Spells`). What the readers make of digits is
what these denote by their places (`digitsToNat_eq`), so every spelling is read
as its integer, and never as a double, whatever letters are among its digits.
Of the texts that are matched as integers only those with a digit that is not
octal behind a zero denote none (`integers_denote`).
-/
import Mathlib.Data.List.Induction
import Mathlib.Data.Nat.Digits.Defs
import Mathlib.Tactic.IntervalCases
import ProtoBind.Proofs.Source.Matching
import ProtoBind.Proofs.Source.Names
import ProtoBind.Source.Literal

namespace ProtoBind.Source

open Terminal (isHexDigit isHexMark)

/-! ## Digits -/

/-- The digits of all bases in their order. -/
def digitOrder : List Char := ['0', '1', '2', '3', '4', '5', '6', '7', '8', '9', 'a', 'b', 'c', 'd', 'e', 'f']

/-- The value of a digit: its place among the digits, in either case. -/
def digitValue (c : Char) : Nat := digitOrder.idxOf c.toLower

/-- The number that digits denote in a base by their places, the last one counting once. -/
def positional (base : Nat) (ds : List Char) : Nat := Nat.ofDigits base (ds.reverse.map digitValue)

variable {base n k : Nat} {ds s text : List Char} {c x : Char} {i : Int}

theorem positional_concat (base : Nat) (ds : List Char) (c : Char) :
    positional base (ds ++ [c]) = positional base ds * base + digitValue c := by
  rw [positional, positional, List.reverse_concat, List.map_cons, Nat.ofDigits_cons, Nat.mul_comm, Nat.add_comm]

/-- What holds of the digits of all bases, one by one. -/
theorem hexDigit_of {P : Char → Prop} [DecidablePred P]
    (h : ((digitOrder ++ ['A', 'B', 'C', 'D', 'E', 'F']).all fun c => P c) = true) (hc : isHexDigit c = true) : P c := by
  refine of_decide_eq_true (List.all_eq_true.mp h c ?_)
  have hrange : (48 ≤ c.toNat ∧ c.toNat ≤ 57) ∨ (97 ≤ c.toNat ∧ c.toNat ≤ 102) ∨ (65 ≤ c.toNat ∧ c.toNat ≤ 70) := by
    simpa [isHexDigit, Char.isDigit, Char.le_def, UInt32.le_iff_toNat_le, or_assoc] using hc
  rw [← Char.ofNat_toNat c]
  rcases hrange with ⟨hl, hu⟩ | ⟨hl, hu⟩ | ⟨hl, hu⟩ <;> interval_cases c.toNat <;> decide

/-- The readers find the value of a digit by its code point. -/
theorem digitValue_eq (hc : isHexDigit c = true) :
    digitValue c = if c.isDigit then c.toNat - 48 else if c.isLower then c.toNat - 87 else c.toNat - 55 :=
  hexDigit_of (P := fun c => digitValue c = if c.isDigit then c.toNat - 48 else if c.isLower then c.toNat - 87
    else c.toNat - 55) (by decide) hc

/-- Every digit is a decimal one, a small letter or a capital letter. -/
theorem hexDigit_class (hc : isHexDigit c = true) : c.isDigit = false →
    ('a' ≤ c && c ≤ 'f') = c.isLower ∧ ('A' ≤ c && c ≤ 'F') = !c.isLower :=
  hexDigit_of (P := fun c => c.isDigit = false →
    ('a' ≤ c && c ≤ 'f') = c.isLower ∧ ('A' ≤ c && c ≤ 'F') = !c.isLower) (by decide) hc

theorem isHexDigit_of_isDigit (h : c.isDigit = true) : isHexDigit c = true := by
  rw [isHexDigit, h]
  rfl

theorem digit_of_octal (h : isOctal c = true) : c.isDigit = true := by
  simp only [isOctal, Char.isDigit, Bool.and_eq_true, decide_eq_true_eq, Char.le_def, UInt32.le_iff_toNat_le,
    ge_iff_le] at h ⊢
  exact ⟨h.1, Nat.le_trans h.2 (by decide)⟩

/-- An octal digit is one whose value is below eight. -/
theorem isOctal_iff : isOctal c = true ↔ isHexDigit c = true ∧ digitValue c < 8 := by
  refine ⟨fun h => ?_, fun ⟨hc, hvalue⟩ => ?_⟩
  · have hc := isHexDigit_of_isDigit (digit_of_octal h)
    exact ⟨hc, hexDigit_of (P := fun c => isOctal c = true → digitValue c < 8) (by decide) hc h⟩
  · exact hexDigit_of (P := fun c => digitValue c < 8 → isOctal c = true) (by decide) hc hvalue

/-- A digit of a base is one whose value is below the base. -/
theorem areDigits_iff : areDigits base ds = true ↔ ds ≠ [] ∧ ∀ c ∈ ds, isHexDigit c = true ∧ digitValue c < base := by
  rw [areDigits, Bool.and_eq_true, Bool.not_eq_true', List.isEmpty_eq_false_iff, List.all_eq_true]
  refine and_congr_right fun _ => forall₂_congr fun c _ => ?_
  cases hc : isHexDigit c with
  | false =>
    simp only [isHexDigit, Bool.or_eq_false_iff] at hc
    simp [hc]
  | true =>
    rw [digitValue_eq hc]
    cases hdigit : c.isDigit with
    | true => simp
    | false =>
      obtain ⟨hsmall, hcapital⟩ := hexDigit_class hc hdigit
      rw [hsmall, hcapital]
      cases c.isLower <;> simp

/-- **What digits are read as is what they denote by their places.** -/
theorem digitsToNat_eq (base : Nat) (hds : ∀ c ∈ ds, isHexDigit c = true) :
    Text.digitsToNat base ds = positional base ds := by
  induction ds using List.reverseRecOn with
  | nil => rfl
  | append_singleton ds c ih =>
    rw [List.forall_mem_append] at hds
    rw [positional_concat, ← ih hds.1, digitValue_eq (hds.2 c (List.mem_singleton_self c)), Text.digitsToNat,
      List.foldl_append]
    rfl

/-! ## Spellings -/

/-- The ways to write a natural number. -/
inductive Writes : List Char → Nat → Prop
  /-- Only zero begins with a zero. -/
  | decimal {ds : List Char} (hne : ds ≠ []) (hlead : ds.head? ≠ some '0' ∨ ds = ['0'])
    (hds : ∀ c ∈ ds, c.isDigit = true) : Writes ds (positional 10 ds)
  | hexadecimal {x : Char} {ds : List Char} (hx : x = 'x' ∨ x = 'X') (hne : ds ≠ [])
    (hds : ∀ c ∈ ds, isHexDigit c = true) : Writes ('0' :: x :: ds) (positional 16 ds)
  | octal {ds : List Char} (hds : ∀ c ∈ ds, isOctal c = true) : Writes ('0' :: ds) (positional 8 ds)

/-- The ways to write an integer. -/
inductive Spells : List Char → Int → Prop
  | unsigned {ds : List Char} {n : Nat} (h : Writes ds n) : Spells ds n
  | plus {ds : List Char} {n : Nat} (h : Writes ds n) : Spells ('+' :: ds) n
  | minus {ds : List Char} {n : Nat} (h : Writes ds n) : Spells ('-' :: ds) (-n)

/-- What stands behind the sign of a number. -/
def unsignedPart (text : List Char) : List Char := text.dropWhile fun c => c == '+' || c == '-'

/-- Decimal digits that are more than are read. -/
def Overlong (text : List Char) : Prop :=
  (unsignedPart text).head? ≠ some '0' ∧ Text.maxIntegerDigits < (unsignedPart text).length

instance (text : List Char) : Decidable (Overlong text) := inferInstanceAs (Decidable (_ ∧ _))

namespace Writes

theorem first (h : Writes ds n) : ∃ c rest, ds = c :: rest ∧ c.isDigit = true := by
  cases h with
  | decimal hne _ hds =>
    obtain ⟨c, rest, rfl⟩ := List.exists_cons_of_ne_nil hne
    exact ⟨c, rest, rfl, hds c List.mem_cons_self⟩
  | hexadecimal | octal => exact ⟨'0', _, rfl, by decide⟩

/-- No sign stands before a natural number. -/
theorem dropWhile (h : Writes ds n) {p : Char → Bool} (hp : ∀ c, c.isDigit = true → p c = false) :
    ds.dropWhile p = ds := by
  obtain ⟨c, rest, rfl, hc⟩ := h.first
  rw [List.dropWhile_cons_of_neg (by simp [hp c hc])]

theorem not_sign (hc : c.isDigit = true) : c ≠ '+' ∧ c ≠ '-' := by
  constructor <;> (rintro rfl; exact absurd hc (by decide))

theorem unsigned (h : Writes ds n) : unsignedPart ds = ds := h.dropWhile fun c hc => by simp [not_sign hc]

theorem signed (h : Writes ds n) {sign : Char} (hsign : sign = '+' ∨ sign = '-') : unsignedPart (sign :: ds) = ds :=
  (List.dropWhile_cons_of_pos (by simpa using hsign)).trans h.unsigned

/-- **A natural number is read as it is written**, unless its decimal digits are too many. -/
theorem magnitude (h : Writes ds n) (hpart : unsignedPart text = ds) (hshort : ¬ Overlong text) :
    magnitude? (unsignedPart text) = some n := by
  rw [Overlong, hpart] at hshort
  rw [hpart]
  cases h with
  | decimal hne hlead hds =>
    have hhex : ∀ c ∈ ds, isHexDigit c = true := fun c hc => isHexDigit_of_isDigit (hds c hc)
    have hdigits : areDigits 10 ds = true := areDigits_iff.mpr ⟨hne, fun c hc => ⟨hhex c hc,
      hexDigit_of (P := fun c => c.isDigit = true → digitValue c < 10) (by decide) (hhex c hc) (hds c hc)⟩⟩
    have hlength : ds.length ≤ Text.maxIntegerDigits := by
      rcases hlead with hlead | rfl
      · exact Nat.not_lt.mp fun hlong => hshort ⟨hlead, hlong⟩
      · decide
    unfold magnitude?
    split
    next => simp at hlead
    next => rw [if_pos (by simp [hdigits, hlength]), digitsToNat_eq 10 hhex]
  | @hexadecimal x ds hx hne hds =>
    have hdigits : areDigits 16 ds = true := areDigits_iff.mpr ⟨hne, fun c hc => ⟨hds c hc,
      hexDigit_of (P := fun c => digitValue c < 16) (by decide) (hds c hc)⟩⟩
    simp only [magnitude?]
    rw [if_pos (by simpa using hx), if_pos hdigits, digitsToNat_eq 16 hds]
  | @octal ds hds =>
    cases ds with
    | nil => decide
    | cons x rest =>
      have hmark : ¬ (x == 'x' || x == 'X') = true := fun hx => by
        have hoctal := hds x List.mem_cons_self
        rcases (by simpa using hx : x = 'x' ∨ x = 'X') with rfl | rfl <;> exact absurd hoctal (by decide)
      have hall : ∀ c ∈ x :: rest, isHexDigit c = true ∧ digitValue c < 8 := fun c hc => isOctal_iff.mp (hds c hc)
      simp only [magnitude?]
      rw [if_neg hmark, if_pos (areDigits_iff.mpr ⟨List.cons_ne_nil _ _, hall⟩),
        digitsToNat_eq 8 fun c hc => (hall c hc).1]

/-- No letter of a natural number is more than a digit, except the mark of hexadecimal ones. -/
theorem chars (h : Writes ds n) : ∀ c ∈ ds, isHexDigit c = true ∨ isHexMark c = true := by
  cases h with
  | decimal _ _ hds => exact fun c hc => .inl (isHexDigit_of_isDigit (hds c hc))
  | hexadecimal hx _ hds =>
    refine List.forall_mem_cons.mpr ⟨.inl (by decide), List.forall_mem_cons.mpr ⟨.inr ?_, fun c hc => .inl (hds c hc)⟩⟩
    simpa [isHexMark] using hx
  | octal hds => exact List.forall_mem_cons.mpr ⟨.inl (by decide), fun c hc => .inl (isOctal_iff.mp (hds c hc)).1⟩

theorem toLower_digit (hc : c.isDigit = true) : c.toLower = c :=
  hexDigit_of (P := fun c => c.isDigit = true → c.toLower = c) (by decide) (isHexDigit_of_isDigit hc) hc

theorem map_toLower_digits (hds : ∀ c ∈ ds, c.isDigit = true) : ds.map Char.toLower = ds :=
  (List.map_congr_left fun c hc => toLower_digit (hds c hc)).trans (List.map_id ds)

/-- Capital letters do not matter. -/
theorem lower (h : Writes ds n) : Writes (ds.map Char.toLower) n := by
  cases h with
  | decimal hne hlead hds =>
    rw [map_toLower_digits hds]
    exact .decimal hne hlead hds
  | @hexadecimal x ds hx hne hds =>
    have hvalue : positional 16 (ds.map Char.toLower) = positional 16 ds := by
      rw [positional, ← List.map_reverse, List.map_map]
      exact congrArg _ (List.map_congr_left fun c hc => hexDigit_of
        (P := fun c => digitValue c.toLower = digitValue c) (by decide) (hds c (List.mem_reverse.mp hc)))
    rw [← hvalue]
    refine .hexadecimal (.inl ?_) (by simpa using hne) (List.forall_mem_map.mpr fun c hc => hexDigit_of
      (P := fun c => isHexDigit c.toLower = true) (by decide) (hds c hc))
    rcases hx with rfl | rfl <;> decide
  | octal hds =>
    rw [List.map_cons, map_toLower_digits fun c hc => digit_of_octal (hds c hc)]
    exact .octal hds

/-- **No natural number looks like a double**: with a small letter among its digits it begins with the mark of
hexadecimal ones. -/
theorem not_double (h : Writes ds n) : '.' ∉ ds.map Char.toLower ∧
    ('e' ∈ ds.map Char.toLower → ['0', 'x'].isPrefixOf (ds.map Char.toLower) = true) := by
  have hplain : ∀ {ds : List Char} {c : Char}, (∀ c ∈ ds, c.isDigit = true) → c ∈ ds.map Char.toLower →
      c.isDigit = true :=
    fun hds hc => hds _ (map_toLower_digits hds ▸ hc)
  refine ⟨fun hpoint => ?_, fun hletter => ?_⟩
  · rcases h.lower.chars _ hpoint with hc | hc <;> exact absurd hc (by decide)
  · cases h with
    | decimal _ _ hds => exact absurd (hplain hds hletter) (by decide)
    | hexadecimal hx => rcases hx with rfl | rfl <;> rfl
    | octal hds =>
      have hrest := fun c hc => digit_of_octal (hds c hc)
      exact absurd (hplain (List.forall_mem_cons.mpr ⟨by decide, hrest⟩) hletter) (by decide)

end Writes

/-- Decimal digits that are too many denote nothing. -/
theorem magnitude_overlong (h : Overlong text) : magnitude? (unsignedPart text) = none := by
  unfold magnitude?
  split
  next heq => exact absurd (congrArg List.head? heq) h.1
  next => exact if_neg (by simp [Nat.not_le.mpr h.2])

namespace Spells

/-- **Every spelling is read as its integer**, unless its decimal digits are too many. -/
theorem intLiteral (h : Spells text i) (hshort : ¬ Overlong text) : intLiteral? text = some i := by
  rw [intLiteral?]
  cases h with
  | unsigned h =>
    have hvalue := h.magnitude h.unsigned hshort
    obtain ⟨c, rest, rfl, hc⟩ := h.first
    have hminus : ((c :: rest).head? == some '-') = false := by simpa using (Writes.not_sign hc).2
    rw [unsignedPart] at hvalue
    rw [hvalue, hminus]
    rfl
  | plus h =>
    have hvalue := h.magnitude (h.signed (.inl rfl)) hshort
    rw [unsignedPart] at hvalue
    rw [hvalue]
    rfl
  | minus h =>
    have hvalue := h.magnitude (h.signed (.inr rfl)) hshort
    rw [unsignedPart] at hvalue
    rw [hvalue]
    rfl

/-- What a number is read from: its spelling in small letters, without a plus sign. -/
theorem lowered (h : Spells text i) : ∃ sign ds n, Writes ds n ∧ (sign = [] ∨ sign = ['-']) ∧
    (text.map Char.toLower).dropWhile (· == '+') = sign ++ ds.map Char.toLower ∧
    Spells (sign ++ ds.map Char.toLower) i ∧ unsignedPart text = ds := by
  have hplus : ∀ {ds : List Char} {n : Nat}, Writes ds n →
      (ds.map Char.toLower).dropWhile (· == '+') = ds.map Char.toLower :=
    fun h => h.lower.dropWhile fun c hc => by simpa using (Writes.not_sign hc).1
  cases h with
  | unsigned h => exact ⟨[], _, _, h, .inl rfl, hplus h, .unsigned h.lower, h.unsigned⟩
  | @plus ds n h => exact ⟨[], ds, n, h, .inl rfl, hplus h, .unsigned h.lower, h.signed (.inl rfl)⟩
  | @minus ds n h => exact ⟨['-'], ds, n, h, .inr rfl, rfl, .minus h.lower, h.signed (.inr rfl)⟩

/-- **Every spelling is a number that is no double**, unless its decimal digits are too many. -/
theorem numberLiteral (h : Spells text i) (hshort : ¬ Overlong text) : numberLiteral? text = some (.int i) := by
  obtain ⟨sign, ds, n, hds, hsign, hlower, hspells, hpart⟩ := h.lowered
  have hchars : ∀ c ∈ sign ++ ds.map Char.toLower, c = '-' ∨ isHexDigit c = true ∨ isHexMark c = true :=
    List.forall_mem_append.mpr ⟨fun c hc => .inl (by rcases hsign with rfl | rfl <;> simp_all),
      fun c hc => .inr (hds.lower.chars c hc)⟩
  have hword : ["inf", "-inf", "nan", "-nan"].contains (String.ofList (sign ++ ds.map Char.toLower)) = false := by
    refine Bool.eq_false_iff.mpr fun hcontains => ?_
    have hletter : ∀ w ∈ ["inf", "-inf", "nan", "-nan"], 'n' ∈ w.toList := by decide
    have hn := hletter _ (List.contains_iff_mem.mp hcontains)
    rw [String.toList_ofList] at hn
    exact absurd (hchars _ hn) (by decide)
  have hmark : (sign ++ ds.map Char.toLower).dropWhile (· == '-') = ds.map Char.toLower := by
    have hdrop := hds.lower.dropWhile (p := (· == '-')) fun c hc => by simpa using (Writes.not_sign hc).2
    rcases hsign with rfl | rfl
    · exact hdrop
    · exact (List.dropWhile_cons_of_pos rfl).trans hdrop
  have hdouble : (((sign ++ ds.map Char.toLower).contains '.' || (sign ++ ds.map Char.toLower).contains 'e') &&
      !List.isPrefixOf ['0', 'x'] (ds.map Char.toLower)) = false := by
    obtain ⟨hpoint, hletter⟩ := hds.not_double
    have hsigned : ∀ c ∈ sign, c = '-' := by rcases hsign with rfl | rfl <;> simp
    have hin : ∀ {c : Char}, c ≠ '-' → (c ∈ sign ++ ds.map Char.toLower ↔ c ∈ ds.map Char.toLower) := fun hne =>
      List.mem_append.trans (or_iff_right fun hc => hne (hsigned _ hc))
    by_cases he : 'e' ∈ ds.map Char.toLower
    · rw [hletter he, Bool.not_true, Bool.and_false]
    · simp [-List.mem_map, -List.mem_append, hin (c := '.') (by decide), hin (c := 'e') (by decide), hpoint, he]
  have hshort' : ¬ Overlong (sign ++ ds.map Char.toLower) := fun ⟨hhead, hlong⟩ => hshort (by
    have hpart' : unsignedPart (sign ++ ds.map Char.toLower) = ds.map Char.toLower := by
      rcases hsign with rfl | rfl
      · exact hds.lower.unsigned
      · exact hds.lower.signed (.inr rfl)
    rw [hpart', List.head?_map] at hhead
    rw [hpart', List.length_map] at hlong
    rw [Overlong, hpart]
    exact ⟨fun hzero => hhead (by rw [hzero]; rfl), hlong⟩)
  simp only [numberLiteral?, hlower, hword, hmark, hdouble, Bool.false_eq_true, if_false, hspells.intLiteral hshort']
  rfl

end Spells

/-! ## Texts that are matched as integers -/

/-- The text goes on with the mark of hexadecimal numbers behind its first character. -/
def IsHexadecimal (text : List Char) : Prop := ∃ c x rest, text = c :: x :: rest ∧ (x = 'x' ∨ x = 'X')

/-- More than one digit behind a leading zero, no mark of hexadecimal numbers, and a digit that is not octal. -/
structure Misoctal (text : List Char) : Prop where
  longer : 1 < text.length
  leading : text.head? = some '0'
  unmarked : ¬ IsHexadecimal text
  digit : '8' ∈ text ∨ '9' ∈ text

/-- A text that is matched as an integer is hexadecimal, or it is digits. -/
theorem int_matched (h : Terminal.int.matchLength s = some k) :
    (∃ x ds, s.take k = '0' :: x :: ds ∧ (x = 'x' ∨ x = 'X') ∧ ds ≠ [] ∧ ∀ c ∈ ds, isHexDigit c = true) ∨
      s.take k ≠ [] ∧ ∀ c ∈ s.take k, c.isDigit = true := by
  have hspan : ∀ {p : Char → Bool} {s : List Char} {k : Nat}, Terminal.positive (Terminal.spanLength p s) = some k →
      s.take k ≠ [] ∧ ∀ c ∈ s.take k, p c = true := by
    intro p s k hk
    obtain ⟨hpos, rfl⟩ := Terminal.positive_le hk
    have hle := Terminal.spanLength_le (p := p) s
    exact ⟨by rw [← List.length_pos_iff, List.length_take]; omega, fun c hc => Terminal.mem_take_spanLength hc⟩
  rw [show Terminal.int.matchLength s = Terminal.intLength s from rfl, Terminal.intLength_eq,
    Option.or_eq_some_iff] at h
  rcases h with hhex | ⟨-, hdigits⟩
  · unfold Terminal.hexLength at hhex
    split at hhex
    next c x rest =>
      obtain ⟨⟨rfl, hx⟩, hlength⟩ := Option.ite_none_right_eq_some.mp hhex
      obtain ⟨n, hn, rfl⟩ := Option.map_eq_some_iff.mp hlength
      obtain ⟨hne, hds⟩ := hspan hn
      exact .inl ⟨x, rest.take n, rfl, by simpa [isHexMark] using hx, hne, hds⟩
    next => cases hhex
  · exact .inr (hspan hdigits)

/-- Digits behind a zero that are not all octal denote nothing. -/
theorem intLiteral_not_octal {rest : List Char} (hx : isHexMark x = false) (h : ¬ ∀ c ∈ x :: rest, isOctal c = true) :
    intLiteral? ('0' :: x :: rest) = none := by
  have hmagnitude : magnitude? ('0' :: x :: rest) = none := by
    rw [magnitude?, if_neg (by rw [← isHexMark, hx]; exact Bool.false_ne_true), if_neg fun hdigits => h fun c hc =>
      isOctal_iff.mpr ((areDigits_iff.mp hdigits).2 c hc)]
  rw [intLiteral?, List.dropWhile_cons_of_neg (by decide), hmagnitude]
  rfl

/-- A decimal digit that is not octal is an eight or a nine. -/
theorem eq_of_not_octal (hc : c.isDigit = true) (hoctal : isOctal c ≠ true) : c = '8' ∨ c = '9' :=
  hexDigit_of (P := fun c => c.isDigit = true → isOctal c ≠ true → c = '8' ∨ c = '9') (by decide)
    (isHexDigit_of_isDigit hc) hc hoctal

theorem not_hexMark (hc : c.isDigit = true) : isHexMark c = false :=
  hexDigit_of (P := fun c => c.isDigit = true → isHexMark c = false) (by decide) (isHexDigit_of_isDigit hc) hc

/-- Among digits behind a zero it is those that are not octal. -/
theorem misoctal_iff {rest : List Char} (hds : ∀ c ∈ x :: rest, c.isDigit = true) :
    Misoctal ('0' :: x :: rest) ↔ ¬ ∀ c ∈ x :: rest, isOctal c = true := by
  constructor
  · rintro ⟨-, -, -, h | h⟩ hall
    · exact absurd (hall '8' (List.mem_of_ne_of_mem (by decide) h)) (by decide)
    · exact absurd (hall '9' (List.mem_of_ne_of_mem (by decide) h)) (by decide)
  · intro hnot
    obtain ⟨c, hc, hoctal⟩ : ∃ c ∈ x :: rest, isOctal c ≠ true := by push Not at hnot; exact hnot
    refine ⟨by simp, rfl, ?_, ?_⟩
    · rintro ⟨_, x', rest', heq, hx⟩
      cases heq
      exact absurd (not_hexMark (hds x List.mem_cons_self)) (by rcases hx with rfl | rfl <;> decide)
    · rcases eq_of_not_octal (hds c hc) hoctal with rfl | rfl
      · exact .inl (List.mem_cons_of_mem _ hc)
      · exact .inr (List.mem_cons_of_mem _ hc)

/-- **Integers denote their values**, in every base and with every sign: a spelling is read as its integer where an
integer is asked for and where any number is, unless it is decimal and longer than what is read. A text that is matched
as an integer denotes none just when it has a digit that is not octal behind a zero, or is that long. -/
theorem integers_denote :
    (∀ {text : List Char} {i : Int}, Spells text i → ¬ Overlong text →
      intLiteral? text = some i ∧ numberLiteral? text = some (.int i)) ∧
    ∀ {s : List Char} {k : Nat}, Terminal.int.matchLength s = some k →
      (intLiteral? (s.take k) = none ↔ Misoctal (s.take k) ∨ Overlong (s.take k)) := by
  refine ⟨fun h hshort => ⟨h.intLiteral hshort, h.numberLiteral hshort⟩, fun {s k} h => ?_⟩
  -- A spelling that is short enough is read, and no text is both a spelling and misoctal.
  have hread {n : Nat} (hw : Writes (s.take k) n) (hoctal : ¬ Misoctal (s.take k)) :
      intLiteral? (s.take k) = none ↔ Misoctal (s.take k) ∨ Overlong (s.take k) := by
    rw [or_iff_right hoctal]
    by_cases hlong : Overlong (s.take k)
    · refine iff_of_true ?_ hlong
      rw [intLiteral?, ← unsignedPart, magnitude_overlong hlong]
      rfl
    · refine iff_of_false ?_ hlong
      rw [(Spells.unsigned hw).intLiteral hlong]
      exact nofun
  rcases int_matched h with ⟨x, ds, htake, hx, hne, hds⟩ | ⟨hne, hdigits⟩
  · exact hread (n := positional 16 ds) (htake ▸ Writes.hexadecimal hx hne hds)
      fun hm => hm.unmarked ⟨'0', x, ds, htake, hx⟩
  · obtain ⟨c, rest, htake⟩ := List.exists_cons_of_ne_nil hne
    rw [htake] at hread hdigits ⊢
    by_cases hzero : c = '0'
    · subst hzero
      cases rest with
      | nil => exact hread (.decimal nofun (.inr rfl) hdigits) fun hm => absurd hm.longer (by decide)
      | cons x rest =>
        have hds : ∀ c ∈ x :: rest, c.isDigit = true := fun c hc => hdigits c (List.mem_cons_of_mem _ hc)
        by_cases hall : ∀ c ∈ x :: rest, isOctal c = true
        · exact hread (.octal hall) fun hm => (misoctal_iff hds).mp hm hall
        · exact iff_of_true (intLiteral_not_octal (not_hexMark (hds x List.mem_cons_self)) hall)
            (.inl ((misoctal_iff hds).mpr hall))
    · exact hread (.decimal nofun (.inl fun h => hzero (Option.some.inj h)) hdigits)
        fun hm => hzero (Option.some.inj hm.leading)

/-- A hexadecimal number with a letter of exponents, and a text that begins like an octal one. -/
theorem integers_denote_letters : Spells ['-', '0', 'X', '1', 'E'] (-30) ∧ ¬ Overlong ['-', '0', 'X', '1', 'E'] ∧
    intLiteral? ['-', '0', 'X', '1', 'E'] = some (-30) ∧ numberLiteral? ['-', '0', 'X', '1', 'E'] = some (.int (-30)) ∧
    Terminal.int.matchLength ['0', '1', '9', ';'] = some 3 ∧ intLiteral? ['0', '1', '9'] = none := by
  have hspells : Spells ['-', '0', 'X', '1', 'E'] (-30) :=
    .minus (@Writes.hexadecimal 'X' ['1', 'E'] (.inr rfl) nofun (by simp; decide))
  have hshort : ¬ Overlong ['-', '0', 'X', '1', 'E'] := fun h => h.1 rfl
  have hmatch : Terminal.int.matchLength ['0', '1', '9', ';'] = some 3 := by decide
  refine ⟨hspells, hshort, (integers_denote.1 hspells hshort).1, (integers_denote.1 hspells hshort).2, hmatch, ?_⟩
  refine (integers_denote.2 hmatch).mpr (.inl ((misoctal_iff ?_).mpr fun h => ?_))
  · simp
  · exact absurd (h '9' (by simp)) (by decide)

end ProtoBind.Source
