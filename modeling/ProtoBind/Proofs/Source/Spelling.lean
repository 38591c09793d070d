/-
Tokens written out.

A token is clear when its terminal, wherever it is expected, finds just its
text (`Token.Clear`). Marks, words, other identifiers, decimal numbers and
quoted texts without escapes are clear. Clear tokens come one after the other
when they are written with single blanks between them (`upcoming_spaced`).
-/
import ProtoBind.Proofs.Source.Derivations

namespace ProtoBind.Source

open Terminal (floatLength stringLength commentLength intLength spanLength isIdentStart isIdentRest quotedLength)
open Grammar (hasBit)

variable {expected n : Nat} {s : List Char} {c : Char} {t u : Terminal} {w : String}

/-- Wherever its terminal is expected the token is found by its text. -/
structure Token.Clear (k : Token) : Prop where
  bare : k.bare = k
  found : k.terminal ≠ .blank ∧ k.terminal ≠ .comment
  scanned : ∀ expected, hasBit expected k.terminal.index = true →
    scan expected k.text.toList = some (k.terminal, k.text.toList.length)

theorem Token.Clear.of_scan (ht : t ≠ .blank ∧ t ≠ .comment) (h : ∀ expected, hasBit expected t.index = true →
    scan expected w.toList = some (t, w.toList.length)) : (Token.of t w).Clear :=
  ⟨rfl, ht, h⟩

/-! ## Scanning -/

/-- The numbers of the terminals are their places. -/
theorem numbered_split (t : Terminal) : ∃ before after, numbered = before ++ (t, t.index) :: after ∧
    ∀ x ∈ before, x.2 = x.1.index ∧ x.1.index < t.index := by
  have hsplit : ∀ t ∈ Terminal.all, numbered = numbered.take t.index ++ (t, t.index) :: numbered.drop (t.index + 1) ∧
      ∀ x ∈ numbered.take t.index, x.2 = x.1.index ∧ x.1.index < t.index := by
    decide
  exact ⟨_, _, hsplit t t.mem_all⟩

/-- A terminal is scanned when it is tried and matches and none before it does. -/
theorem scan_first_match (htried : isTried expected t t.index = true) (hmatch : t.matchLength s = some n)
    (hbefore : ∀ u : Terminal, u.index < t.index → isTried expected u u.index = true → u.matchLength s = none) :
    scan expected s = some (if t = .ident then classify expected (s.take n) else t, n) := by
  obtain ⟨before, after, hsplit, hnumbers⟩ := numbered_split t
  refine scan_eq_some.mpr ⟨before, t, t.index, after, hsplit, htried, hmatch, rfl, fun x hx hxtried => ?_⟩
  obtain ⟨hnumber, hlt⟩ := hnumbers x hx
  exact hbefore x.1 hlt (hnumber ▸ hxtried)

/-- What is neither a word nor an identifier is tried where it is expected. -/
theorem isTried_plain (hword : t.word? = none) (hexpected : hasBit expected t.index = true) :
    isTried expected t t.index = true := by
  simp [isTried, hword, hexpected]

/-- A number with a point begins with a digit or a point. -/
theorem floatLength_none (hs : ∀ c ∈ s.head?, c.isDigit = false ∧ c ≠ '.') : floatLength s = none := by
  have hspan : spanLength Char.isDigit s = 0 := by
    cases s with
    | nil => rfl
    | cons c s => rw [spanLength, (hs c rfl).1]; rfl
  rw [Terminal.floatLength_eq, hspan, List.drop_zero, Terminal.fraction_other fun c hc => (hs c hc).2, if_pos rfl]

/-! ## Marks -/

theorem mark_alone (ht : t.mark? = some c) (hu : u ≠ t) : u.matchLength [c] = none := by
  have hchecked : (Terminal.all.all fun t => t.mark?.all fun c => Terminal.all.all fun u =>
      u == t || (u.matchLength [c]).isNone) = true := by
    decide
  have hmark := List.all_eq_true.mp hchecked t t.mem_all
  rw [ht] at hmark
  simpa [hu] using List.all_eq_true.mp hmark u u.mem_all

theorem clear_mark (ht : t.mark? = some c) : (Token.of t (String.ofList [c])).Clear := by
  have hother : t.word? = none ∧ t ≠ .ident ∧ t ≠ .blank ∧ t ≠ .comment := by
    cases t <;> cases ht <;> decide
  refine .of_scan hother.2.2 fun expected hexpected => ?_
  have hmatch : t.matchLength [c] = some 1 := by
    rw [Terminal.matchLength_mark ht]
    simp [Terminal.exactLength]
  have hscan := scan_first_match (isTried_plain hother.1 hexpected) hmatch fun u hlt _ =>
    mark_alone ht fun he => absurd hlt (by rw [he]; exact Nat.lt_irrefl _)
  rw [if_neg hother.2.1] at hscan
  simpa using hscan

/-! ## Words and other identifiers -/

/-- A letter or an underscore, then letters, digits and underscores. -/
def isIdentText : List Char → Bool
  | c :: rest => isIdentStart c && rest.all isIdentRest
  | [] => false

/-- An identifier that is no word of the language. -/
def isIdentifier (s : String) : Bool := isIdentText s.toList && Terminal.all.all fun t => t.word? != some s

theorem identStart_ne {d : Char} (h : isIdentStart c = true) (hd : isIdentStart d = false) : c ≠ d := by
  rintro rfl
  rw [h] at hd
  cases hd

theorem identStart_not_digit (h : isIdentStart c = true) : c.isDigit = false := by
  have hclass : isIdentStart c = (decide (c.val ≥ 'A'.val ∧ c.val ≤ 'Z'.val) ||
      (decide (c.val ≥ 'a'.val) && decide (c.val ≤ 'z'.val)) || c == '_') := rfl
  have hdigit : c.isDigit = (decide (c.val ≥ '0'.val) && decide (c.val ≤ '9'.val)) := rfl
  rw [Bool.eq_false_iff, hdigit]
  intro hd
  simp only [hclass, Bool.or_eq_true, Bool.and_eq_true, decide_eq_true_eq, beq_iff_eq, UInt32.le_iff_toNat_le,
    ge_iff_le] at h hd
  have hnine : '9'.val.toNat < 'A'.val.toNat ∧ '9'.val.toNat < 'a'.val.toNat := by decide
  rcases h with (h | h) | rfl
  · omega
  · omega
  · revert hd
    decide

/-- No number begins with what is no digit. -/
theorem intLength_none (s : List Char) (hc : c.isDigit = false) : intLength (c :: s) = none := by
  have hhex : Terminal.hexLength (c :: s) = none := by
    cases s with
    | nil => rfl
    | cons x s =>
      refine if_neg fun h => ?_
      rw [h.1] at hc
      cases hc
  rw [Terminal.intLength_eq, hhex, spanLength, hc]
  rfl

/-- An identifier matches as one, and is no number, no quoted text and no comment. -/
theorem identText_match (h : isIdentText s = true) : Terminal.ident.matchLength s = some s.length ∧
    ∀ u : Terminal, u.index < Terminal.ident.index → u.matchLength s = none := by
  cases s with
  | nil => cases h
  | cons c rest =>
    rw [isIdentText, Bool.and_eq_true] at h
    obtain ⟨hc, hrest⟩ := h
    refine ⟨?_, fun u hlt => ?_⟩
    · show Terminal.identLength (c :: rest) = _
      rw [Terminal.identLength, if_pos hc, spanLength_all (List.all_eq_true.mp hrest), List.length_cons, Nat.add_comm]
    · have hu : u = .float ∨ u = .int ∨ u.isSpecial = true := by
        revert hlt
        cases u <;> decide
      rcases hu with rfl | rfl | hu
      · refine floatLength_none fun d hd => ?_
        obtain rfl := Option.some.inj hd
        exact ⟨identStart_not_digit hc, identStart_ne hc (by decide)⟩
      · exact intLength_none rest (identStart_not_digit hc)
      · refine Option.eq_none_iff_forall_ne_some.mpr fun n hn => ?_
        obtain ⟨hbreak, -⟩ := Terminal.special_first hu hn
        exact absurd hc (Bool.eq_false_iff.mp (Terminal.break_of (P := fun c => isIdentStart c = false) (by decide) c hbreak))

/-- Where identifiers are expected, an identifier is the word that it is if this word is expected too. -/
theorem scan_identText (hs : isIdentText s = true) (hexpected : hasBit expected Terminal.ident.index = true) :
    scan expected s = some (classify expected s, s.length) := by
  obtain ⟨hmatch, hbefore⟩ := identText_match hs
  have hscan := scan_first_match (isTried_plain rfl hexpected) hmatch fun u hlt _ => hbefore u hlt
  rwa [if_pos rfl, List.take_length] at hscan

theorem clear_ident (h : isIdentifier w = true) : (Token.of .ident w).Clear := by
  rw [isIdentifier, Bool.and_eq_true] at h
  refine .of_scan (by decide) fun expected hexpected => ?_
  have hnone : classify expected w.toList = .ident := by
    rw [classify, List.find?_eq_none.mpr fun x hx => ?_]
    · rfl
    · have hne := List.all_eq_true.mp h.2 x.1 x.1.mem_all
      rw [bne_iff_ne] at hne
      simp [hne]
  have hscan := scan_identText h.1 hexpected
  rw [hnone] at hscan
  exact hscan

/-- A word is an identifier by its letters, no other word is the same, and none before it is a beginning of it. -/
theorem word_alone (ht : t.word? = some w) : isIdentText w.toList = true ∧ t.matchLength w.toList = some w.toList.length ∧
    (∀ u : Terminal, u.word? = some w → u = t) ∧
    ∀ u : Terminal, u.index < t.index → u ≠ .ident → u.matchLength w.toList = none := by
  have hchecked : ∀ t ∈ Terminal.all, ∀ w ∈ t.word?, isIdentText w.toList = true ∧
      t.matchLength w.toList = some w.toList.length ∧ (∀ u ∈ Terminal.all, u.word? = some w → u = t) ∧
      ∀ u ∈ Terminal.all, u.index < t.index → u ≠ .ident → u.matchLength w.toList = none := by
    decide
  obtain ⟨htext, hmatch, hsame, hbefore⟩ := hchecked t t.mem_all w ht
  exact ⟨htext, hmatch, fun u => hsame u u.mem_all, fun u => hbefore u u.mem_all⟩

/-- Where identifiers are expected too, the word is told from them. -/
theorem classify_word (ht : t.word? = some w) (hexpected : hasBit expected t.index = true) :
    classify expected w.toList = t := by
  obtain ⟨before, after, hsplit, hnumbers⟩ := numbered_split t
  rw [classify, List.find?_eq_some_iff_append.mpr
    ⟨by simpa [ht] using hexpected, before, after, hsplit, fun x hx => ?_⟩]
  · rfl
  · have hne : x.1.word? ≠ some w := fun he => by
      have hlt := (hnumbers x hx).2
      rw [(word_alone ht).2.2.1 x.1 he] at hlt
      exact Nat.lt_irrefl _ hlt
    simp [hne]

theorem clear_word (ht : t.word? = some w) : (Token.of t w).Clear := by
  have hother : t ≠ .ident ∧ t ≠ .blank ∧ t ≠ .comment := by
    refine ⟨?_, ?_, ?_⟩ <;> (rintro rfl; cases ht)
  refine .of_scan hother.2 fun expected hexpected => ?_
  obtain ⟨htext, hmatch, -, hbefore⟩ := word_alone ht
  cases hbit : hasBit expected Terminal.ident.index with
  | true => rw [scan_identText htext hbit, classify_word ht hexpected]
  | false =>
    have htried : isTried expected t t.index = true := by
      simp only [isTried, hbit, Bool.not_false, Bool.or_true, Bool.and_true, Bool.or_eq_true]
      exact .inr hexpected
    have hscan := scan_first_match htried hmatch fun u hlt hutried => hbefore u hlt fun he => by
      rw [he, isTried, hbit] at hutried
      cases hutried
    rwa [if_neg hother.1] at hscan

/-- The text of a terminal that has only one. -/
def Terminal.spelling? (t : Terminal) : Option String := t.word?.or (t.mark?.map fun c => String.ofList [c])

theorem clear_spelled (ht : t.spelling? = some w) : (Token.of t w).Clear := by
  rcases Option.or_eq_some_iff.mp ht with hword | ⟨-, hmark⟩
  · exact clear_word hword
  · obtain ⟨c, hc, rfl⟩ := Option.map_eq_some_iff.mp hmark
    exact clear_mark hc

/-! ## Numbers -/

/-- Decimal digits match as an integer, and are no number with a point, no quoted text and no comment. -/
theorem digits_match {ds : List Char} (hne : ds ≠ []) (hds : ∀ d ∈ ds, d.isDigit = true) :
    Terminal.int.matchLength ds = some ds.length ∧
      ∀ u : Terminal, u.index < Terminal.int.index → u.matchLength ds = none := by
  refine ⟨?_, fun u hlt => ?_⟩
  · have hhex : Terminal.hexLength ds = none := by
      match ds, hds with
      | [], _ | [_], _ => rfl
      | c :: x :: rest, hds =>
        refine if_neg fun h => ?_
        have hx := hds x (by simp)
        rcases (by simpa [Terminal.isHexMark] using h.2 : x = 'x' ∨ x = 'X') with rfl | rfl <;> exact absurd hx (by decide)
    show intLength ds = _
    rw [Terminal.intLength_eq, hhex, spanLength_all hds, Option.none_or, Terminal.positive,
      if_neg (List.length_eq_zero_iff.not.mpr hne)]
  · have hu : u = .float ∨ u.isSpecial = true := by
      revert hlt
      cases u <;> decide
    rcases hu with rfl | hu
    · show floatLength ds = none
      rw [Terminal.floatLength_eq, spanLength_all hds, List.drop_length, Terminal.fraction_nil]
    · obtain ⟨c, rest, rfl⟩ := List.exists_cons_of_ne_nil hne
      refine Option.eq_none_iff_forall_ne_some.mpr fun n hn => ?_
      have hbreak := Terminal.break_digit c (Terminal.special_first hu hn).1
      rw [hds c List.mem_cons_self] at hbreak
      cases hbreak

theorem clear_digits {ds : List Char} (hne : ds ≠ []) (hds : ∀ d ∈ ds, d.isDigit = true) :
    (Token.of .int (String.ofList ds)).Clear := by
  refine .of_scan (by decide) fun expected hexpected => ?_
  obtain ⟨hmatch, hbefore⟩ := digits_match hne hds
  have hscan := scan_first_match (isTried_plain rfl hexpected) hmatch fun u hlt _ => hbefore u hlt
  rw [if_neg (by decide)] at hscan
  simpa using hscan

/-! ## Quoted texts -/

/-- A character that stands for itself between quotes: printable, and neither a quote nor a backslash. -/
def isPlainChar (c : Char) : Bool := ' ' ≤ c && c ≤ '~' && c != '"' && c != '\'' && c != '\\'

/-- The quoted text. -/
def quotedText (w : String) : String := String.ofList ('"' :: (w.toList ++ ['"']))

theorem quotedLength_plain : ∀ {body : List Char}, (∀ c ∈ body, isPlainChar c = true) →
    quotedLength '"' (body ++ ['"']) = some (body.length + 1)
  | [], _ => rfl
  | c :: body, h => by
    have hc := h c List.mem_cons_self
    simp only [isPlainChar, Bool.and_eq_true, bne_iff_ne, decide_eq_true_eq] at hc
    have hfeed : c ≠ '\n' := by
      rintro rfl
      exact absurd hc.1.1.1.1 (by decide)
    rw [List.cons_append, Terminal.quoted_cons hc.2, if_neg (by simpa using hc.1.1.2), if_neg (by simpa using hfeed),
      quotedLength_plain fun d hd => h d (List.mem_cons_of_mem c hd)]
    rfl

theorem clear_quoted (h : ∀ c ∈ w.toList, isPlainChar c = true) : (Token.of .string (quotedText w)).Clear := by
  refine .of_scan (by decide) fun expected hexpected => ?_
  have hmatch : Terminal.string.matchLength (quotedText w).toList = some (quotedText w).toList.length := by
    show stringLength (quotedText w).toList = _
    rw [quotedText, String.toList_ofList, stringLength, if_pos (by decide), quotedLength_plain h]
    simp
  have hfloat : floatLength (quotedText w).toList = none := floatLength_none fun c hc => by
    rw [quotedText, String.toList_ofList] at hc
    obtain rfl := Option.some.inj hc
    decide
  have hscan := scan_first_match (isTried_plain rfl hexpected) hmatch fun u hlt _ => by
    obtain rfl : u = .float := by
      revert hlt
      cases u <;> decide
    exact hfloat
  rwa [if_neg (by decide)] at hscan

/-! ## Tokens one after the other -/

theorem Token.Clear.lexeme {k : Token} (h : k.Clear) (hexpected : hasBit expected k.terminal.index = true)
    {r : List Char} (hr : Stopped r) : lexeme expected (k.text.toList ++ r) = .token k.terminal k.text r := by
  have hscan : scan expected (k.text.toList ++ []) = some (k.terminal, k.text.toList.length) := by
    rw [List.append_nil]
    exact h.scanned expected hexpected
  rw [lexeme_scan (scan_stopped hscan (Nat.le_refl _) h.found hr), if_neg (not_or.mpr h.found), List.take_left,
    List.drop_left, String.ofList_toList]

theorem Upcoming.blank {ks : List Token} (h : Upcoming s ks) : Upcoming (' ' :: s) ks := by
  have hsame : ∀ expected, ProtoBind.Source.lexeme expected (' ' :: s) = ProtoBind.Source.lexeme expected s :=
    fun _ => lexeme_blank rfl
  cases ks with
  | nil => exact fun expected => (hsame expected).trans (h expected)
  | cons k ks =>
    obtain ⟨hbare, rest, hfound, hrest⟩ := h
    exact ⟨hbare, rest, fun expected hexpected => (hsame expected).trans (hfound expected hexpected), hrest⟩

/-- **Clear tokens come one after the other** when single blanks stand between them. -/
theorem upcoming_spaced : ∀ {ks : List Token}, (∀ k ∈ ks, k.Clear) → Upcoming (Text.join " " (ks.map (·.text))).toList ks
  | [], _ => fun _ => lexeme_nil
  | [k], h => by
    have hk := h k List.mem_cons_self
    refine ⟨hk.bare, [], fun expected hexpected => ?_, fun _ => lexeme_nil⟩
    have hlexeme := hk.lexeme hexpected (r := []) nofun
    simpa [Text.join] using hlexeme
  | k :: k' :: ks, h => by
    have hk := h k List.mem_cons_self
    have hrest := upcoming_spaced fun k'' hmem => h k'' (List.mem_cons_of_mem k hmem)
    refine ⟨hk.bare, _, fun expected hexpected => ?_, hrest.blank⟩
    have hlexeme := hk.lexeme hexpected (r := ' ' :: (Text.join " " ((k' :: ks).map (·.text))).toList) fun c hc => by
      obtain rfl := Option.some.inj hc
      rfl
    simpa [Text.join] using hlexeme

end ProtoBind.Source
