/-
What matching at the beginning of a text depends on.

More text behind a beginning leaves a match as it is, or the match goes beyond
the beginning (`Further`). It leaves it as it is when it begins with a blank, a
slash or a quote (`Stopped`): no word, number or mark goes across one
(`matchLength_stopped`). So the terminal that is scanned in a beginning stays
the same, whatever else follows in place of what followed, as long as that is
stopped (`scan_stopped`).
-/
import ProtoBind.Source.Token

namespace ProtoBind.Source

/-- A character that no word, number or mark has. -/
def isBreak (c : Char) : Bool := Terminal.isSpace c || c == '/' || c == '"' || c == '\''

/-- A text that is empty or begins with a break. -/
def Stopped (s : List Char) : Prop := ∀ c ∈ s.head?, isBreak c = true

/-- The matches before and after more text was put behind a beginning of length `n`. -/
def Further (n : Nat) (before after : Option Nat) : Prop := after = before ∨ ∃ m, after = some m ∧ n < m

namespace Further

variable {n m k : Nat} {before after : Option Nat}

theorem refl : Further n before before := .inl rfl

theorem map_add (h : Further n before after) (k : Nat) : Further (n + k) (before.map (· + k)) (after.map (· + k)) := by
  rcases h with rfl | ⟨m, rfl, hm⟩
  · exact refl
  · exact .inr ⟨m + k, rfl, by omega⟩

/-- A match at an empty beginning goes beyond it. -/
theorem of_pos (h : ∀ m, after = some m → 0 < m) : Further 0 none after := by
  cases after with
  | none => exact refl
  | some m => exact .inr ⟨m, rfl, h m rfl⟩

/-- A match, or else another. -/
theorem or {before' after' : Option Nat} (h : Further n before after) (h' : Further n before' after') :
    Further n (before.or before') (after.or after') := by
  rcases h with rfl | ⟨m, rfl, hm⟩
  · cases after with
    | none => simpa using h'
    | some m => exact refl
  · exact .inr ⟨m, rfl, hm⟩

/-- A match in the beginning was there before. -/
theorem eq_some (h : Further n before after) (hm : after = some m) (hle : m ≤ n) : before = some m := by
  rcases h with rfl | ⟨k, rfl, hk⟩
  · exact hm
  · obtain rfl := Option.some.inj hm
    omega

/-- Where nothing matches now, nothing did before. -/
theorem eq_none (h : Further n before after) (hn : after = none) : before = none := by
  rcases h with rfl | ⟨k, rfl, -⟩
  · exact hn
  · cases hn

end Further

namespace Terminal

variable {p : Char → Bool} {s q : List Char} {c : Char} {n : Nat} {t : Terminal}

/-! ## Runs of characters -/

theorem spanLength_le : ∀ s : List Char, spanLength p s ≤ s.length
  | [] => Nat.le_refl 0
  | c :: s => by
    rw [spanLength]
    split
    · exact Nat.succ_le_succ (spanLength_le s)
    · exact Nat.zero_le _

/-- A run stays the same, or all of the beginning belongs to it and it goes beyond. -/
theorem spanLength_append : ∀ s q : List Char, spanLength p (s ++ q) = spanLength p s ∨
    spanLength p s = s.length ∧ s.length < spanLength p (s ++ q)
  | [], q => by
    rw [List.nil_append, spanLength, List.length_nil]
    omega
  | c :: s, q => by
    rw [List.cons_append, spanLength, spanLength, List.length_cons]
    have ih := spanLength_append s q
    split
    · omega
    · exact .inl rfl

theorem spanLength_stopped (hq : ∀ c ∈ q.head?, p c = false) : ∀ s : List Char,
    spanLength p (s ++ q) = spanLength p s
  | [] => by
    cases q with
    | nil => rfl
    | cons c q =>
      show spanLength p (c :: q) = 0
      rw [spanLength, if_neg (Bool.eq_false_iff.mp (hq c rfl))]
  | c :: s => by rw [List.cons_append, spanLength, spanLength, spanLength_stopped hq s]

theorem positive_further (s q : List Char) :
    Further s.length (positive (spanLength p s)) (positive (spanLength p (s ++ q))) := by
  rcases spanLength_append (p := p) s q with h | ⟨-, h⟩
  · exact .inl (by rw [h])
  · refine .inr ⟨_, if_neg (by omega), h⟩

theorem positive_le (h : positive n = some k) : 0 < k ∧ k = n := by
  rw [positive] at h
  split at h
  · cases h
  · obtain rfl := Option.some.inj h
    omega

theorem spanLength_of_stopped (hp : ∀ c, isBreak c = true → p c = false) (hq : Stopped q) (s : List Char) :
    spanLength p (s ++ q) = spanLength p s :=
  spanLength_stopped (fun c hc => hp c (hq c hc)) s

theorem isBreak_iff : isBreak c = true ↔
    c = ' ' ∨ c = '\t' ∨ c = '\x0c' ∨ c = '\r' ∨ c = '\n' ∨ c = '/' ∨ c = '"' ∨ c = '\'' := by
  simp [isBreak, isSpace, or_assoc]

/-- What holds of the breaks, one by one. -/
theorem break_of {P : Char → Prop}
    (h : P ' ' ∧ P '\t' ∧ P '\x0c' ∧ P '\r' ∧ P '\n' ∧ P '/' ∧ P '"' ∧ P '\'') (c : Char) (hc : isBreak c = true) :
    P c := by
  obtain ⟨hspace, htab, hfeed, hreturn, hline, hslash, hdouble, hsingle⟩ := h
  rcases isBreak_iff.mp hc with rfl | rfl | rfl | rfl | rfl | rfl | rfl | rfl <;> assumption

theorem break_digit : ∀ c, isBreak c = true → c.isDigit = false := break_of (by decide)

theorem break_hexDigit : ∀ c, isBreak c = true → isHexDigit c = false := break_of (by decide)

theorem break_identRest : ∀ c, isBreak c = true → isIdentRest c = false := break_of (by decide)

/-! ## Numbers -/

/-- The letter of an exponent. -/
def isExponent (c : Char) : Bool := c == 'e' || c == 'E'

def isSign (c : Char) : Bool := c == '+' || c == '-'

theorem exponent_other {e : Char} (he : isExponent e = false) (s : List Char) : exponentLength (e :: s) = none :=
  if_neg (Bool.eq_false_iff.mp he)

theorem exponent_signed {e x : Char} (he : isExponent e = true) (hx : isSign x = true) (s : List Char) :
    exponentLength (e :: x :: s) = (positive (spanLength Char.isDigit s)).map (· + 2) :=
  (if_pos he).trans (if_pos hx)

theorem exponent_plain {e : Char} (he : isExponent e = true) : ∀ {s : List Char}, (∀ x ∈ s.head?, isSign x = false) →
    exponentLength (e :: s) = (positive (spanLength Char.isDigit s)).map (· + 1)
  | [], _ => if_pos he
  | x :: _, hs => (if_pos he).trans (if_neg (Bool.eq_false_iff.mp (hs x rfl)))

theorem exponent_pos (h : exponentLength s = some n) : 0 < n := by
  cases s with
  | nil => cases h
  | cons e s =>
    cases he : isExponent e with
    | false => rw [exponent_other he] at h; cases h
    | true =>
      by_cases hs : ∀ x ∈ s.head?, isSign x = false
      · rw [exponent_plain he hs] at h
        obtain ⟨k, -, rfl⟩ := Option.map_eq_some_iff.mp h
        omega
      · cases s with
        | nil => exact absurd nofun hs
        | cons x s =>
          rw [exponent_signed he (by simpa using hs)] at h
          obtain ⟨k, -, rfl⟩ := Option.map_eq_some_iff.mp h
          omega

theorem exponent_further : ∀ s q : List Char, Further s.length (exponentLength s) (exponentLength (s ++ q))
  | [], q => Further.of_pos fun _ => exponent_pos
  | [e], q => by
    cases he : isExponent e with
    | false => exact .inl ((exponent_other he _).trans (exponent_other he _).symm)
    | true =>
      rw [show exponentLength [e] = none from exponent_plain he nofun, List.singleton_append]
      by_cases hq : ∀ x ∈ q.head?, isSign x = false
      · rw [exponent_plain he hq]
        exact (positive_further [] q).map_add 1
      · cases q with
        | nil => exact absurd nofun hq
        | cons x q =>
          rw [exponent_signed he (by simpa using hq)]
          rcases (positive_further (p := Char.isDigit) [] q).map_add 2 with h | ⟨m, h, hm⟩
          · exact .inl h
          · exact .inr ⟨m, h, Nat.lt_of_succ_lt hm⟩
  | e :: x :: s, q => by
    cases he : isExponent e with
    | false => exact .inl ((exponent_other he _).trans (exponent_other he _).symm)
    | true =>
      cases hx : isSign x with
      | true =>
        rw [List.cons_append, List.cons_append, exponent_signed he hx, exponent_signed he hx]
        exact (positive_further s q).map_add 2
      | false =>
        have hplain : ∀ r : List Char, ∀ y ∈ (x :: r).head?, isSign y = false := fun r y hy => Option.some.inj hy ▸ hx
        rw [List.cons_append, List.cons_append, exponent_plain he (hplain _), exponent_plain he (hplain _)]
        exact (positive_further (x :: s) q).map_add 1

theorem exponent_stopped (hq : Stopped q) : ∀ s : List Char, exponentLength (s ++ q) = exponentLength s
  | [] => by
    cases q with
    | nil => rfl
    | cons e q => exact exponent_other (break_of (P := fun c => isExponent c = false) (by decide) e (hq e rfl)) q
  | e :: s => by
    cases he : isExponent e with
    | false => exact (exponent_other he _).trans (exponent_other he _).symm
    | true =>
      by_cases hs : ∀ x ∈ s.head?, isSign x = false
      · have hsq : ∀ x ∈ (s ++ q).head?, isSign x = false := by
          cases s with
          | nil => exact fun x hx => break_of (P := fun c => isSign c = false) (by decide) x (hq x hx)
          | cons x s => exact hs
        rw [List.cons_append, exponent_plain he hs, exponent_plain he hsq, spanLength_of_stopped break_digit hq]
      · cases s with
        | nil => exact absurd nofun hs
        | cons x s =>
          have hx : isSign x = true := by simpa using hs
          rw [List.cons_append, List.cons_append, exponent_signed he hx, exponent_signed he hx,
            spanLength_of_stopped break_digit hq]

/-- The length of a number with a point or an exponent, from its digits on. -/
def fractionLength (whole : Nat) : List Char → Option Nat
  | '.' :: rest =>
    let part := spanLength Char.isDigit rest
    if whole = 0 ∧ part = 0 then none
    else some (whole + 1 + part + (exponentLength (rest.drop part)).getD 0)
  | rest => if whole = 0 then none else (exponentLength rest).map (whole + ·)

theorem floatLength_eq (s : List Char) :
    floatLength s = fractionLength (spanLength Char.isDigit s) (s.drop (spanLength Char.isDigit s)) := rfl

theorem fraction_gt {whole : Nat} (h : fractionLength whole s = some n) : whole < n := by
  unfold fractionLength at h
  split at h
  next rest =>
    dsimp only at h
    split at h
    · cases h
    · obtain rfl := Option.some.inj h
      omega
  next =>
    split at h
    · cases h
    · obtain ⟨k, hk, rfl⟩ := Option.map_eq_some_iff.mp h
      have := exponent_pos hk
      omega

theorem fraction_point (whole : Nat) (rest : List Char) : fractionLength whole ('.' :: rest) =
    if whole = 0 ∧ spanLength Char.isDigit rest = 0 then none
    else some (whole + 1 + spanLength Char.isDigit rest +
      (exponentLength (rest.drop (spanLength Char.isDigit rest))).getD 0) := rfl

theorem fraction_other {whole : Nat} (hs : ∀ c ∈ s.head?, c ≠ '.') :
    fractionLength whole s = if whole = 0 then none else (exponentLength s).map (whole + ·) := by
  unfold fractionLength
  split
  · exact absurd rfl (hs '.' rfl)
  · rfl

theorem fraction_nil (whole : Nat) : fractionLength whole [] = none := by simp [fractionLength, exponentLength]

theorem fraction_further (whole : Nat) (s q : List Char) :
    Further (whole + s.length) (fractionLength whole s) (fractionLength whole (s ++ q)) := by
  match s with
  | [] =>
    rw [fraction_nil, List.nil_append]
    cases hq : fractionLength whole q with
    | none => exact .refl
    | some n => exact .inr ⟨n, rfl, fraction_gt hq⟩
  | c :: rest =>
    by_cases hc : c = '.'
    · subst hc
      rw [List.cons_append, fraction_point, fraction_point, List.length_cons]
      rcases spanLength_append (p := Char.isDigit) rest q with hspan | ⟨-, hspan⟩
      · rw [hspan, List.drop_append_of_le_length (spanLength_le rest)]
        split
        · exact .refl
        · have hlength := List.length_drop (i := spanLength Char.isDigit rest) (l := rest)
          have hle := spanLength_le (p := Char.isDigit) rest
          rcases exponent_further (rest.drop (spanLength Char.isDigit rest)) q with h | ⟨m, h, hm⟩
          · exact .inl (by rw [h])
          · refine .inr ⟨_, by rw [h], ?_⟩
            rw [Option.getD_some]
            omega
      · rw [if_neg (by omega : ¬ (whole = 0 ∧ spanLength Char.isDigit (rest ++ q) = 0))]
        exact .inr ⟨_, rfl, by omega⟩
    have hother : ∀ r : List Char, ∀ x ∈ (c :: r).head?, x ≠ '.' := fun r x hx => Option.some.inj hx ▸ hc
    rw [List.cons_append, fraction_other (hother _), fraction_other (hother _)]
    split
    · exact .refl
    · rcases exponent_further (c :: rest) q with h | ⟨m, h, hm⟩
      · exact .inl (by rw [← List.cons_append, h])
      · exact .inr ⟨whole + m, by rw [← List.cons_append, h]; rfl, by omega⟩

theorem fraction_stopped (hq : Stopped q) (whole : Nat) (s : List Char) :
    fractionLength whole (s ++ q) = fractionLength whole s := by
  have hhead : ∀ {s : List Char}, (∀ c ∈ s.head?, c ≠ '.') → ∀ c ∈ (s ++ q).head?, c ≠ '.' := by
    intro s hs
    cases s with
    | nil => exact fun c hc => break_of (P := (· ≠ '.')) (by decide) c (hq c hc)
    | cons c s => exact hs
  by_cases hs : ∀ c ∈ s.head?, c ≠ '.'
  · rw [fraction_other hs, fraction_other (hhead hs), exponent_stopped hq]
  · cases s with
    | nil => exact absurd nofun hs
    | cons c rest =>
      obtain rfl : c = '.' := by simpa using hs
      rw [List.cons_append, fraction_point, fraction_point, spanLength_of_stopped break_digit hq,
        List.drop_append_of_le_length (spanLength_le rest), exponent_stopped hq]

theorem float_further (s q : List Char) : Further s.length (floatLength s) (floatLength (s ++ q)) := by
  rw [floatLength_eq, floatLength_eq]
  rcases spanLength_append (p := Char.isDigit) s q with hspan | ⟨hall, hspan⟩
  · have hle := spanLength_le (p := Char.isDigit) s
    have hfurther := fraction_further (spanLength Char.isDigit s) (s.drop (spanLength Char.isDigit s)) q
    rw [hspan, List.drop_append_of_le_length hle]
    rwa [List.length_drop, Nat.add_sub_cancel' hle] at hfurther
  · -- All of the beginning are digits, so a match that there is goes on behind them.
    rw [hall, List.drop_length, fraction_nil]
    cases h : fractionLength (spanLength Char.isDigit (s ++ q)) ((s ++ q).drop (spanLength Char.isDigit (s ++ q))) with
    | none => exact .refl
    | some n => exact .inr ⟨n, rfl, Nat.lt_trans hspan (fraction_gt h)⟩

theorem float_stopped (hq : Stopped q) (s : List Char) : floatLength (s ++ q) = floatLength s := by
  rw [floatLength_eq, floatLength_eq, spanLength_of_stopped break_digit hq,
    List.drop_append_of_le_length (spanLength_le s), fraction_stopped hq]

/-- The letter after the zero of a hexadecimal number. -/
def isHexMark (c : Char) : Bool := c == 'x' || c == 'X'

/-- The length of hexadecimal digits with `0x` before them. -/
def hexLength : List Char → Option Nat
  | c :: x :: rest =>
    if c = '0' ∧ isHexMark x = true then (positive (spanLength isHexDigit rest)).map (· + 2) else none
  | _ => none

theorem intLength_eq (s : List Char) : intLength s = (hexLength s).or (positive (spanLength Char.isDigit s)) := by
  unfold intLength
  split
  next x rest =>
    rw [hexLength]
    simp only [true_and, isHexMark]
    split
    · cases positive (spanLength isHexDigit rest) <;> rfl
    · rfl
  next hother =>
    have hnone : hexLength s = none := by
      unfold hexLength
      split
      next c x rest =>
        refine if_neg fun h => ?_
        exact hother x rest (h.1 ▸ rfl)
      next => rfl
    rw [hnone, Option.none_or]

theorem hex_further (s q : List Char) : Further s.length (hexLength s) (hexLength (s ++ q)) := by
  match s with
  | c :: x :: rest =>
    rw [List.cons_append, List.cons_append, hexLength, hexLength]
    split
    · exact (positive_further rest q).map_add 2
    · exact .refl
  | [c] =>
    cases q with
    | nil => exact .refl
    | cons x rest =>
      rw [List.singleton_append, hexLength]
      split
      · rcases (positive_further (p := isHexDigit) [] rest).map_add 2 with h | ⟨m, h, hm⟩
        · exact .inl h
        · exact .inr ⟨m, h, Nat.lt_of_succ_lt hm⟩
      · exact .refl
  | [] =>
    refine Further.of_pos fun n h => ?_
    match q with
    | c :: x :: rest =>
      rw [List.nil_append, hexLength] at h
      split at h
      · obtain ⟨k, -, rfl⟩ := Option.map_eq_some_iff.mp h
        omega
      · cases h

theorem hex_stopped (hq : Stopped q) (s : List Char) : hexLength (s ++ q) = hexLength s := by
  match s with
  | c :: x :: rest =>
    rw [List.cons_append, List.cons_append, hexLength, hexLength, spanLength_of_stopped break_hexDigit hq]
  | [c] =>
    cases q with
    | nil => rfl
    | cons x rest =>
      have hx : isHexMark x = false := break_of (P := fun c => isHexMark c = false) (by decide) x (hq x rfl)
      rw [List.singleton_append, hexLength, if_neg (by simp [hx])]
      rfl
  | [] =>
    match q with
    | [] | [c] => rfl
    | c :: x :: rest =>
      have hc : c ≠ '0' := break_of (P := (· ≠ '0')) (by decide) c (hq c rfl)
      rw [List.nil_append, hexLength, if_neg (by simp [hc])]
      rfl

theorem int_further (s q : List Char) : Further s.length (intLength s) (intLength (s ++ q)) := by
  rw [intLength_eq, intLength_eq]
  exact (hex_further s q).or (positive_further s q)

theorem int_stopped (hq : Stopped q) (s : List Char) : intLength (s ++ q) = intLength s := by
  rw [intLength_eq, intLength_eq, hex_stopped hq, spanLength_of_stopped break_digit hq]

/-! ## Words and marks -/

theorem ident_further : ∀ s q : List Char, Further s.length (identLength s) (identLength (s ++ q))
  | [], q => Further.of_pos fun n h => by
    cases q with
    | nil => cases h
    | cons c q =>
      rw [List.nil_append, identLength] at h
      split at h
      · obtain rfl := Option.some.inj h
        omega
      · cases h
  | c :: s, q => by
    rw [List.cons_append, identLength, identLength]
    split
    · rcases spanLength_append (p := isIdentRest) s q with h | ⟨-, h⟩
      · exact .inl (by rw [h])
      · exact .inr ⟨_, rfl, by rw [List.length_cons]; omega⟩
    · exact .refl

theorem ident_stopped (hq : Stopped q) : ∀ s : List Char, identLength (s ++ q) = identLength s
  | [] => by
    cases q with
    | nil => rfl
    | cons c q =>
      have hc : isIdentStart c = false := break_of (P := fun c => isIdentStart c = false) (by decide) c (hq c rfl)
      rw [List.nil_append, identLength, hc]
      rfl
  | c :: s => by rw [List.cons_append, identLength, identLength, spanLength_of_stopped break_identRest hq]

/-- The length of a text that has to stand at the beginning as it is. -/
def exactLength (w s : List Char) : Option Nat := if w.isPrefixOf s then some w.length else none

theorem exact_further (w s q : List Char) : Further s.length (exactLength w s) (exactLength w (s ++ q)) := by
  by_cases hle : w.length ≤ s.length
  · have hiff : w <+: s ++ q ↔ w <+: s :=
      ⟨fun h => List.prefix_of_prefix_length_le h (List.prefix_append s q) hle, fun h => h.trans (List.prefix_append s q)⟩
    refine .inl ?_
    simp only [exactLength, List.isPrefixOf_iff_prefix, hiff]
  · have hnone : exactLength w s = none := if_neg fun h => hle (List.isPrefixOf_iff_prefix.mp h).length_le
    rw [hnone, exactLength]
    split
    · exact .inr ⟨_, rfl, by omega⟩
    · exact .refl

theorem exact_stopped (hq : Stopped q) : ∀ {w : List Char}, (∀ c ∈ w, isBreak c = false) → ∀ s : List Char,
    w.isPrefixOf (s ++ q) = w.isPrefixOf s
  | [], _, s => by rw [List.isPrefixOf_nil_left, List.isPrefixOf_nil_left]
  | c :: w, hw, [] => by
    cases q with
    | nil => rfl
    | cons d q =>
      have hne : c ≠ d := fun he => Bool.eq_false_iff.mp (hw c List.mem_cons_self) (he ▸ hq d rfl)
      exact Bool.and_eq_false_iff.mpr (.inl (beq_false_of_ne hne))
  | c :: w, hw, d :: s => by
    rw [List.cons_append, List.isPrefixOf_cons_cons, List.isPrefixOf_cons_cons,
      exact_stopped hq (fun x hx => hw x (List.mem_cons_of_mem c hx)) s]

/-! ## Quoted texts -/

theorem quoted_cons {quote : Char} (hc : c ≠ '\\') (s : List Char) : quotedLength quote (c :: s) =
    if c == quote then some 1 else if c == '\n' then none else (quotedLength quote s).map (· + 1) := by
  rw [quotedLength]
  · simp [hc]
  · exact fun x rest he => absurd he hc

/-- A quoted text is found by its own characters. -/
theorem quoted_take {quote : Char} (hquote : quote ≠ '\\') (s q : List Char) : ∀ {n : Nat},
    quotedLength quote s = some n → quotedLength quote (s.take n ++ q) = some n := by
  fun_induction quotedLength quote s with
  | case1 | case2 => exact nofun
  | case3 c rest hc ih =>
    intro n h
    obtain ⟨k, hk, rfl⟩ := Option.map_eq_some_iff.mp h
    rw [List.take_succ_cons, List.take_succ_cons, List.cons_append, List.cons_append, quotedLength, if_neg hc, ih hk]
    rfl
  | case4 c rest _ hc =>
    intro n h
    obtain rfl := Option.some.inj h
    have hne : c ≠ '\\' := fun he => hquote (he ▸ (eq_of_beq hc).symm)
    rw [List.take_succ_cons, List.cons_append, quoted_cons hne, if_pos hc]
  | case5 => exact nofun
  | case6 c rest _ hc hstop ih =>
    intro n h
    obtain ⟨k, hk, rfl⟩ := Option.map_eq_some_iff.mp h
    rw [Bool.or_eq_true, not_or, beq_iff_eq, beq_iff_eq] at hstop
    rw [List.take_succ_cons, List.cons_append, quoted_cons hstop.2, if_neg hc, if_neg (by simpa using hstop.1), ih hk]
    rfl

theorem string_take (q : List Char) (h : stringLength s = some n) : stringLength (s.take n ++ q) = some n := by
  cases s with
  | nil => cases h
  | cons c s =>
    rw [stringLength] at h
    split at h
    next hc =>
      obtain ⟨k, hk, rfl⟩ := Option.map_eq_some_iff.mp h
      have hquote : c ≠ '\\' := by rintro rfl; exact absurd hc (by decide)
      rw [List.take_succ_cons, List.cons_append, stringLength, if_pos hc, quoted_take hquote s q hk]
      rfl
    next => cases h

/-! ## Terminals -/

/-- A terminal that is a quoted text or may stand between tokens. -/
def isSpecial (t : Terminal) : Bool := t == .string || t == .comment || t == .blank

theorem isSpecial_iff : t.isSpecial = true ↔ t = .string ∨ t = .comment ∨ t = .blank := by
  simp [isSpecial, or_assoc]

theorem matchLength_word {w : String} (h : t.word? = some w) (s : List Char) :
    t.matchLength s = exactLength w.toList s := by
  have hword : t.matchLength s = if w.toList.isPrefixOf s then some w.length else none := by
    cases t <;> cases h <;> rfl
  rw [hword, exactLength, String.length_toList]

theorem matchLength_mark (h : t.mark? = some c) (s : List Char) : t.matchLength s = exactLength [c] s := by
  have hmark : t.matchLength s = if s.head? == some c then some 1 else none := by
    cases t <;> cases h <;> rfl
  rw [hmark, exactLength]
  cases s with
  | nil => rfl
  | cons d s =>
    rw [List.isPrefixOf_cons_cons, List.isPrefixOf_nil_left, Bool.and_true, List.head?_cons, Bool.beq_comm (a := c)]
    rfl

/-- Words and marks stand as they are. -/
theorem exists_exact (ht : t.isSpecial = false) : t = .float ∨ t = .int ∨ t = .ident ∨
    ∃ w, (∀ s, t.matchLength s = exactLength w s) ∧ ∀ c ∈ w, isBreak c = false := by
  have hplain {w : List Char} (h : w.all (fun c => !isBreak c) = true) : ∀ c ∈ w, isBreak c = false := by
    simpa using h
  cases hw : t.word? with
  | some w =>
    refine .inr (.inr (.inr ⟨w.toList, matchLength_word hw, hplain ?_⟩))
    cases t <;> cases hw <;> decide
  | none =>
    cases hm : t.mark? with
    | some c =>
      refine .inr (.inr (.inr ⟨[c], matchLength_mark hm, hplain ?_⟩))
      cases t <;> cases hm <;> decide
    | none => cases t <;> first | (cases hw; done) | (cases hm; done) | (cases ht; done) | simp

/-- More text behind a beginning leaves a match as it is, or it goes beyond. -/
theorem matchLength_further (ht : t.isSpecial = false) (s q : List Char) :
    Further s.length (t.matchLength s) (t.matchLength (s ++ q)) := by
  rcases exists_exact ht with rfl | rfl | rfl | ⟨w, hw, -⟩
  · exact float_further s q
  · exact int_further s q
  · exact ident_further s q
  · rw [hw, hw]
    exact exact_further w s q

/-- A match does not go across what stands between tokens. -/
theorem matchLength_stopped (ht : t.isSpecial = false) (hq : Stopped q) (s : List Char) :
    t.matchLength (s ++ q) = t.matchLength s := by
  rcases exists_exact ht with rfl | rfl | rfl | ⟨w, hw, hplain⟩
  · exact float_stopped hq s
  · exact int_stopped hq s
  · exact ident_stopped hq s
  · rw [hw, hw, exactLength, exact_stopped hq hplain]
    rfl

/-! ## First characters -/

theorem matchLength_nil (t : Terminal) : t.matchLength [] = none := by
  cases t <;> rfl

theorem stringLength_first (h : stringLength (c :: s) = some n) : c = '"' ∨ c = '\'' := by
  rw [stringLength] at h
  split at h
  next hc => simpa using hc
  next => cases h

theorem commentLength_first (h : commentLength (c :: s) = some n) : c = '/' := by
  unfold commentLength at h
  split at h
  next he => exact (List.cons.inj he).1
  next he => exact (List.cons.inj he).1
  next => cases h

theorem blank_first (h : positive (spanLength isSpace (c :: s)) = some n) : isSpace c = true := by
  cases hc : isSpace c with
  | true => rfl
  | false =>
    rw [spanLength, hc] at h
    cases h

/-- A special terminal begins with a break, which says which one it is. -/
theorem special_first (ht : t.isSpecial = true) (h : t.matchLength (c :: s) = some n) :
    isBreak c = true ∧ t = if isSpace c then .blank else if c = '/' then .comment else .string := by
  rcases isSpecial_iff.mp ht with rfl | rfl | rfl
  · rcases stringLength_first h with rfl | rfl <;> exact ⟨rfl, rfl⟩
  · obtain rfl := commentLength_first h
    exact ⟨rfl, rfl⟩
  · have hspace := blank_first h
    exact ⟨by rw [isBreak, hspace]; rfl, by rw [if_pos hspace]⟩

/-- With a break begins only the terminal that it is for. -/
theorem matchLength_break (hc : isBreak c = true) (h : t.matchLength (c :: s) = some n) :
    t = if isSpace c then .blank else if c = '/' then .comment else .string := by
  cases ht : t.isSpecial with
  | false =>
    have hstopped : Stopped (c :: s) := fun d hd => by cases hd; exact hc
    have hnone : t.matchLength ([] ++ c :: s) = t.matchLength [] := matchLength_stopped ht hstopped []
    rw [List.nil_append, h, matchLength_nil] at hnone
    cases hnone
  | true => exact (special_first ht h).2

/-- No terminal matches the empty text. -/
theorem matchLength_pos (h : t.matchLength s = some n) : 0 < n := by
  cases ht : t.isSpecial with
  | false =>
    rcases matchLength_further ht [] s with hsame | ⟨m, hm, hpos⟩
    · rw [List.nil_append, h, matchLength_nil] at hsame
      cases hsame
    · rw [List.nil_append, h] at hm
      exact Option.some.inj hm ▸ hpos
  | true =>
    rcases isSpecial_iff.mp ht with rfl | rfl | rfl
    · cases s with
      | nil => cases h
      | cons c s =>
        replace h : (if c == '"' || c == '\'' then (quotedLength c s).map (· + 1) else none) = some n := h
        split at h
        · obtain ⟨k, -, rfl⟩ := Option.map_eq_some_iff.mp h
          exact Nat.succ_pos k
        · cases h
    · replace h : commentLength s = some n := h
      unfold commentLength at h
      split at h
      · obtain rfl := Option.some.inj h
        omega
      · obtain ⟨k, -, rfl⟩ := Option.map_eq_some_iff.mp h
        exact Nat.succ_pos (k + 1)
      · cases h
    · exact (positive_le h).1

/-! ## Lengths -/

theorem positive_span_le (h : positive (spanLength p s) = some n) : n ≤ s.length :=
  (positive_le h).2 ▸ spanLength_le s

theorem exponent_le (h : exponentLength s = some n) : n ≤ s.length := by
  cases s with
  | nil => cases h
  | cons e s =>
    cases he : isExponent e with
    | false => rw [exponent_other he] at h; cases h
    | true =>
      by_cases hs : ∀ x ∈ s.head?, isSign x = false
      · rw [exponent_plain he hs] at h
        obtain ⟨k, hk, rfl⟩ := Option.map_eq_some_iff.mp h
        exact Nat.succ_le_succ (positive_span_le hk)
      · cases s with
        | nil => exact absurd nofun hs
        | cons x s =>
          rw [exponent_signed he (by simpa using hs)] at h
          obtain ⟨k, hk, rfl⟩ := Option.map_eq_some_iff.mp h
          exact Nat.add_le_add_right (positive_span_le hk) 2

theorem fraction_le {whole : Nat} (h : fractionLength whole s = some n) : n ≤ whole + s.length := by
  by_cases hs : ∀ c ∈ s.head?, c ≠ '.'
  · rw [fraction_other hs] at h
    split at h
    · cases h
    · obtain ⟨k, hk, rfl⟩ := Option.map_eq_some_iff.mp h
      exact Nat.add_le_add_left (exponent_le hk) whole
  · cases s with
    | nil => exact absurd nofun hs
    | cons c rest =>
      obtain rfl : c = '.' := by simpa using hs
      rw [fraction_point] at h
      split at h
      · cases h
      · obtain rfl := Option.some.inj h
        have hspan := spanLength_le (p := Char.isDigit) rest
        have hlength := List.length_drop (i := spanLength Char.isDigit rest) (l := rest)
        rw [List.length_cons]
        cases hexponent : exponentLength (rest.drop (spanLength Char.isDigit rest)) with
        | none => simp only [Option.getD_none]; omega
        | some k =>
          have := exponent_le hexponent
          simp only [Option.getD_some]
          omega

theorem hex_le (h : hexLength s = some n) : n ≤ s.length := by
  match s with
  | c :: x :: rest =>
    rw [hexLength] at h
    split at h
    · obtain ⟨k, hk, rfl⟩ := Option.map_eq_some_iff.mp h
      exact Nat.add_le_add_right (positive_span_le hk) 2
    · cases h

theorem quoted_le {quote : Char} (s : List Char) : ∀ {n : Nat}, quotedLength quote s = some n → n ≤ s.length := by
  fun_induction quotedLength quote s with
  | case1 | case2 | case5 => exact nofun
  | case3 c rest _ ih =>
    intro n h
    obtain ⟨k, hk, rfl⟩ := Option.map_eq_some_iff.mp h
    exact Nat.add_le_add_right (ih hk) 2
  | case4 =>
    intro n h
    obtain rfl := Option.some.inj h
    exact Nat.succ_pos _
  | case6 c rest _ _ _ ih =>
    intro n h
    obtain ⟨k, hk, rfl⟩ := Option.map_eq_some_iff.mp h
    exact Nat.succ_le_succ (ih hk)

theorem block_le : ∀ {s : List Char} {n : Nat}, blockLength s = some n → n ≤ s.length := by
  intro s
  fun_induction blockLength s with
  | case1 =>
    intro n h
    obtain rfl := Option.some.inj h
    simp
  | case2 c rest _ ih =>
    intro n h
    obtain ⟨k, hk, rfl⟩ := Option.map_eq_some_iff.mp h
    exact Nat.succ_le_succ (ih hk)
  | case3 => exact nofun

theorem comment_le (h : commentLength s = some n) : n ≤ s.length := by
  unfold commentLength at h
  split at h
  next rest =>
    obtain rfl := Option.some.inj h
    have := spanLength_le (p := (· != '\n')) rest
    simp only [List.length_cons]
    omega
  next rest =>
    obtain ⟨k, hk, rfl⟩ := Option.map_eq_some_iff.mp h
    exact Nat.add_le_add_right (block_le hk) 2
  next => cases h

/-- A match is no longer than the text. -/
theorem matchLength_le (h : t.matchLength s = some n) : n ≤ s.length := by
  cases ht : t.isSpecial with
  | false =>
    rcases exists_exact ht with rfl | rfl | rfl | ⟨w, hw, -⟩
    · have hle := spanLength_le (p := Char.isDigit) s
      have hfraction := fraction_le (s := s.drop (spanLength Char.isDigit s)) ((floatLength_eq s).symm.trans h)
      rw [List.length_drop] at hfraction
      omega
    · rcases Option.or_eq_some_iff.mp ((intLength_eq s).symm.trans h) with hhex | ⟨-, hplain⟩
      · exact hex_le hhex
      · exact positive_span_le hplain
    · cases s with
      | nil => cases h
      | cons c s =>
        replace h : (if isIdentStart c then some (1 + spanLength isIdentRest s) else none) = some n := h
        split at h
        · obtain rfl := Option.some.inj h
          have := spanLength_le (p := isIdentRest) s
          rw [List.length_cons]
          omega
        · cases h
    · rw [hw, exactLength] at h
      split at h
      next hprefix =>
        obtain rfl := Option.some.inj h
        exact (List.isPrefixOf_iff_prefix.mp hprefix).length_le
      next => cases h
  | true =>
    rcases isSpecial_iff.mp ht with rfl | rfl | rfl
    · cases s with
      | nil => cases h
      | cons c s =>
        replace h : (if c == '"' || c == '\'' then (quotedLength c s).map (· + 1) else none) = some n := h
        split at h
        · obtain ⟨k, hk, rfl⟩ := Option.map_eq_some_iff.mp h
          exact Nat.succ_le_succ (quoted_le s hk)
        · cases h
    · exact comment_le h
    · exact positive_span_le h

end Terminal

/-! ## Scanning -/

/-- The first terminal that is tried and matches is scanned, or the word that an identifier is. -/
theorem scan_eq_some {expected n : Nat} {s : List Char} {t : Terminal} : scan expected s = some (t, n) ↔
    ∃ before u i after, numbered = before ++ (u, i) :: after ∧ isTried expected u i = true ∧
      u.matchLength s = some n ∧ t = (if u = .ident then classify expected (s.take n) else u) ∧
      ∀ x ∈ before, isTried expected x.1 x.2 = true → x.1.matchLength s = none := by
  rw [scan, List.findSome?_eq_some_iff]
  constructor
  · rintro ⟨before, ⟨u, i⟩, after, hsplit, hfound, hbefore⟩
    dsimp only at hfound
    split at hfound
    next htried =>
      obtain ⟨k, hk, he⟩ := Option.map_eq_some_iff.mp hfound
      simp only [Prod.mk.injEq, beq_iff_eq] at he
      obtain ⟨rfl, rfl⟩ := he
      refine ⟨before, u, i, after, hsplit, htried, hk, rfl, fun x hx hxtried => ?_⟩
      have hnone := hbefore x hx
      dsimp only at hnone
      rwa [if_pos hxtried, Option.map_eq_none_iff] at hnone
    next => cases hfound
  · rintro ⟨before, u, i, after, hsplit, htried, hn, rfl, hbefore⟩
    refine ⟨before, (u, i), after, hsplit, ?_, fun x hx => ?_⟩
    · simp [htried, hn]
    · dsimp only
      split
      next hxtried => rw [hbefore x hx hxtried]; rfl
      next => rfl

/-- What an identifier is read as: an identifier or a word. -/
theorem word?_classify (expected : Nat) (text : List Char) :
    classify expected text = .ident ∨ (classify expected text).word? ≠ none := by
  rw [classify]
  cases hfind : numbered.find? _ with
  | none => exact .inl rfl
  | some found =>
    have hword := List.find?_some hfind
    dsimp only at hword
    rw [Bool.and_eq_true, beq_iff_eq] at hword
    exact .inr (by rw [Option.map_some, Option.getD_some, hword.2]; nofun)

/-- A terminal that is no word was scanned by its own match. -/
theorem matchLength_of_scan {expected n : Nat} {s : List Char} {t : Terminal} (h : scan expected s = some (t, n))
    (hword : t.word? = none) : t.matchLength s = some n := by
  obtain ⟨-, u, -, -, -, -, hu, rfl, -⟩ := scan_eq_some.mp h
  split at hword
  next hident =>
    rw [if_pos hident, (word?_classify expected _).resolve_right (not_not_intro hword), ← hident]
    exact hu
  next hident => rwa [if_neg hident]

/-- **What is scanned in a beginning of a text stays**, whatever stopped text follows in place of what followed. -/
theorem scan_stopped {expected n : Nat} {s q r : List Char} {t : Terminal} (h : scan expected (s ++ q) = some (t, n))
    (hn : n ≤ s.length) (ht : t ≠ .blank ∧ t ≠ .comment) (hr : Stopped r) : scan expected (s ++ r) = some (t, n) := by
  obtain ⟨before, u, i, after, hsplit, htried, hu, rfl, hbefore⟩ := scan_eq_some.mp h
  have htake : ∀ q : List Char, (s ++ q).take n = s.take n := fun q => List.take_append_of_le_length hn
  refine scan_eq_some.mpr ⟨before, u, i, after, hsplit, htried, ?_, by rw [htake, htake], fun x hx hxtried => ?_⟩
  · cases hspecial : u.isSpecial with
    | false =>
      rw [Terminal.matchLength_stopped hspecial hr]
      exact (Terminal.matchLength_further hspecial s q).eq_some hu hn
    | true =>
      have hstring : u = .string := by
        rcases Terminal.isSpecial_iff.mp hspecial with hu | rfl | rfl
        · exact hu
        · exact absurd rfl ht.2
        · exact absurd rfl ht.1
      subst hstring
      have hstays := Terminal.string_take (s.drop n ++ r) hu
      rwa [htake, ← List.append_assoc, List.take_append_drop] at hstays
  · have hx := hbefore x hx hxtried
    cases hspecial : x.1.isSpecial with
    | false =>
      rw [Terminal.matchLength_stopped hspecial hr]
      exact (Terminal.matchLength_further hspecial s q).eq_none hx
    | true =>
      cases hxr : x.1.matchLength (s ++ r) with
      | none => rfl
      | some m =>
        -- The first character would be a break, so that the terminal scanned is this one, which did not match.
        obtain ⟨c, rest, rfl⟩ : ∃ c rest, s = c :: rest := by
          refine List.exists_cons_of_ne_nil fun he => ?_
          have hpos := Terminal.matchLength_pos hu
          rw [he, List.length_nil] at hn
          omega
        obtain ⟨hc, hxc⟩ := Terminal.special_first hspecial hxr
        rw [hxc, ← Terminal.matchLength_break hc hu, hu] at hx
        cases hx

end ProtoBind.Source
