/-
Quoted texts, read one character at a time.

A character other than a backslash stands for itself, and a backslash and a
letter stand for the character of the escape (`unescape_char`,
`unescape_simple`). A literal whose escapes all mean something denotes a text
unless one of them is half of a surrogate pair, and only then is it called one
(`stringLiteral_surrogate_iff`).
-/
import ProtoBind.Source.Literal

namespace ProtoBind.Source

theorem charOfCode?_toNat (c : Char) : charOfCode? c.toNat = some c := by
  have hvalid : c.toNat.isValidChar := c.valid
  rw [charOfCode?, if_pos hvalid, Char.ofNat_toNat]

theorem charOfCode?_eq_none {code : Nat} : charOfCode? code = none ↔ ¬ code.isValidChar := by
  simp [charOfCode?]

theorem mapM_charOfCode?_eq_none : ∀ {codes : List Nat},
    codes.mapM charOfCode? = none ↔ ∃ code ∈ codes, ¬ code.isValidChar
  | [] => by simp
  | code :: codes => by
    simp only [List.mapM_cons, List.mem_cons, exists_eq_or_imp]
    rw [← charOfCode?_eq_none, ← mapM_charOfCode?_eq_none]
    cases hcode : charOfCode? code with
    | none => simp
    | some c => cases codes.mapM charOfCode? <;> simp

variable [CharacterNames]

/-- One code point of a character, and the code points of the rest. -/
theorem unescape_cons {contents rest : List Char} {fuel fuel' : Nat} {c : Char}
    (h : codePoints contents fuel = (codePoints rest fuel').map (c.toNat :: ·)) :
    unescape contents fuel = (unescape rest fuel').map (c :: ·) := by
  rw [unescape, unescape, h]
  cases codePoints rest fuel' with
  | none => rfl
  | some codes =>
    simp only [Option.map_some, Option.bind_some, List.mapM_cons, charOfCode?_toNat]
    cases codes.mapM charOfCode? <;> rfl

theorem unescape_nil (fuel : Nat) : unescape [] (fuel + 1) = some [] := rfl

theorem unescape_simple {c d : Char} (h : simpleEscape? c = some d) (rest : List Char) (fuel : Nat) :
    unescape ('\\' :: c :: rest) (fuel + 1) = (unescape rest fuel).map (d :: ·) := by
  have hreturn : (c == '\r') = false := by
    rw [beq_eq_false_iff_ne]
    rintro rfl
    cases h
  have hnull : (c == '\x00') = false := by
    rw [beq_eq_false_iff_ne]
    rintro rfl
    cases h
  refine unescape_cons ?_
  rw [codePoints]
  simp only [hreturn, hnull, h]
  rfl

theorem unescape_char {c : Char} (hc : c ≠ '\\') (hreturn : c ≠ '\r') (rest : List Char) (fuel : Nat) :
    unescape (c :: rest) (fuel + 1) = if c = '\x00' then none else (unescape rest fuel).map (c :: ·) := by
  have hcodes : codePoints (c :: rest) (fuel + 1) =
      if c == '\r' || c == '\x00' || c == '\\' then none else (codePoints rest fuel).map (c.toNat :: ·) := by
    rw [codePoints]
    rintro d more rfl
    exact absurd rfl hc
  by_cases hnull : c = '\x00'
  · rw [if_pos hnull, unescape, hcodes, if_pos (by simp [hnull])]
    rfl
  · rw [if_neg hnull]
    refine unescape_cons ?_
    rw [hcodes, if_neg (by simp [hc, hreturn, hnull])]

/-- **A literal lacks a text over half of a surrogate pair when nothing else is wrong with it.** -/
theorem stringLiteral_surrogate_iff {text inner : List Char} (h : inner = (text.drop 1).dropLast) :
    stringLiteral text = .error .surrogate ↔
      ∃ codes, codePoints inner (inner.length + 1) = some codes ∧ ∃ code ∈ codes, ¬ code.isValidChar := by
  simp only [stringLiteral, unescape, ← h]
  cases codePoints inner (inner.length + 1) with
  | none => simp
  | some codes =>
    simp only [Option.some.injEq, exists_eq_left', ← mapM_charOfCode?_eq_none, Option.bind_some]
    cases codes.mapM charOfCode? <;> simp

end ProtoBind.Source
