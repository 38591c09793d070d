/-
Docstrings are literals.

A text is escaped by two replacements, of backslashes and of runs of three
quotes, which come to one pass over it (`escapeDoc_toList`). Between three
quotes on each side the escaped text is one literal, unless it ends with quotes
that no run takes in: those close the literal early (`cutLiteral_escaped`). The
lines of a docstring are the escaped lines of the documentation
(`splitLines_escaped`), and only a docstring of one line ends with the
documentation, so there the quotes at its end matter (`docstring_denotes`).
-/
import ProtoBind.Codegen.Code
import ProtoBind.Codegen.Doc
import ProtoBind.Proofs.Results
import ProtoBind.Proofs.Source.Escapes
import ProtoBind.Proofs.Source.Trailing

namespace ProtoBind.Codegen

open Text

/-! ## Literals between three quotes -/

/-- Cuts a text at the first three quotes in a row, passing over what a backslash escapes: what stands before them, and
what is left behind them. -/
def cutLiteral : List Char → Option (List Char × List Char)
  | [] => none
  | '"' :: '"' :: '"' :: rest => some ([], rest)
  | '\\' :: c :: rest => (cutLiteral rest).map fun cut => ('\\' :: c :: cut.1, cut.2)
  | c :: rest => (cutLiteral rest).map fun cut => (c :: cut.1, cut.2)

/-- A text is one literal between three quotes on each side, and the escapes in it are read as `value`. -/
def Denotes [Source.CharacterNames] (literal value : List Char) : Prop :=
  ∃ body contents, literal = quotes.toList ++ body ∧ cutLiteral body = some (contents, []) ∧
    Source.unescape contents (contents.length + 1) = some value

theorem cutLiteral_escape (c : Char) (rest : List Char) : cutLiteral ('\\' :: c :: rest) =
    (cutLiteral rest).map fun cut => ('\\' :: c :: cut.1, cut.2) := rfl

theorem cutLiteral_char {c : Char} {rest : List Char} (hc : c ≠ '\\') (hq : c = '"' → rest.take 2 ≠ ['"', '"']) :
    cutLiteral (c :: rest) = (cutLiteral rest).map fun cut => (c :: cut.1, cut.2) := by
  rw [cutLiteral]
  · rintro more rfl rfl
    exact hq rfl rfl
  · rintro d more rfl rfl
    exact hc rfl

/-- Nothing is lost but the quotes. -/
theorem cutLiteral_eq {s : List Char} : ∀ {before behind : List Char}, cutLiteral s = some (before, behind) →
    s = before ++ quotes.toList ++ behind := by
  fun_induction cutLiteral s with
  | case1 => exact nofun
  | case2 rest =>
    intro before behind h
    cases h
    rfl
  | case3 c rest ih =>
    intro before behind h
    obtain ⟨cut, hcut, he⟩ := Option.map_eq_some_iff.mp h
    cases he
    rw [ih hcut]
    rfl
  | case4 c rest h1 h2 ih =>
    intro before behind h
    obtain ⟨cut, hcut, he⟩ := Option.map_eq_some_iff.mp h
    cases he
    rw [ih hcut]
    rfl

/-! ## Escaped texts -/

/-- Backslashes and runs of three quotes escaped, in one pass. -/
def escaped : List Char → List Char
  | '"' :: '"' :: '"' :: rest => '\\' :: '"' :: '\\' :: '"' :: '\\' :: '"' :: escaped rest
  | '\\' :: rest => '\\' :: '\\' :: escaped rest
  | c :: rest => c :: escaped rest
  | [] => []

theorem escaped_char {c : Char} {rest : List Char} (hc : c ≠ '\\') (hq : c = '"' → rest.take 2 ≠ ['"', '"']) :
    escaped (c :: rest) = c :: escaped rest := by
  rw [escaped]
  · rintro more rfl rfl
    exact hq rfl rfl
  · rintro rfl
    exact hc rfl

/-- A text is escaped like its parts, unless a run of quotes goes on in the second one. -/
theorem escaped_append {t : List Char} (ht : t.head? ≠ some '"') (s : List Char) :
    escaped (s ++ t) = escaped s ++ escaped t := by
  fun_induction escaped s with
  | case1 rest ih => rw [List.cons_append, List.cons_append, List.cons_append, escaped, ih]; rfl
  | case2 rest ih => rw [List.cons_append, escaped, ih]; rfl
  | case3 c rest h1 h2 ih =>
    rw [List.cons_append, escaped_char (by rintro rfl; exact h2 rfl), ih]
    · rfl
    rintro rfl htake
    match rest, t with
    | [], _ :: _ => simp_all
    | [x], _ :: _ => simp_all
    | x :: y :: more, _ => simp_all
  | case4 => rfl

/-- What is neither a quote nor a backslash stays. -/
theorem escaped_plain_append {s : List Char} (hs : ∀ c ∈ s, c ≠ '"' ∧ c ≠ '\\') (t : List Char) :
    escaped (s ++ t) = s ++ escaped t := by
  induction s with
  | nil => rfl
  | cons c s ih =>
    obtain ⟨⟨hquote, hslash⟩, hs⟩ := List.forall_mem_cons.mp hs
    rw [List.cons_append, escaped_char hslash fun he => absurd he hquote, ih hs]
    rfl

theorem escaped_plain {s : List Char} (hs : ∀ c ∈ s, c ≠ '"' ∧ c ≠ '\\') : escaped s = s := by
  have hself := escaped_plain_append hs []
  rwa [List.append_nil, show escaped [] = [] from rfl, List.append_nil] at hself

/-- The first character of an escaped text is that of the text, or a backslash. -/
theorem escaped_head? (s : List Char) : (escaped s).head? = s.head? ∨ (escaped s).head? = some '\\' := by
  fun_induction escaped s <;> simp

theorem escaped_eq_nil {s : List Char} : escaped s = [] ↔ s = [] := by
  refine ⟨fun h => ?_, fun h => congrArg escaped h⟩
  have hhead := escaped_head? s
  rw [h] at hhead
  exact List.head?_eq_none_iff.mp (hhead.resolve_right nofun).symm

/-- Escaping adds backslashes only. -/
theorem mem_escaped {s : List Char} {c : Char} (h : c ∈ escaped s) : c ∈ s ∨ c = '\\' := by
  fun_induction escaped s with
  | case1 rest ih | case2 rest ih | case3 d rest h1 h2 ih => simp only [List.mem_cons] at h ⊢; tauto
  | case4 => cases h

/-- Every backslash doubled. -/
def doubled (s : List Char) : List Char := s.flatMap fun c => if c = '\\' then ['\\', '\\'] else [c]

theorem replaceAll_skip {old new rest : List Char} {c : Char} {fuel : Nat} (h : old.isPrefixOf (c :: rest) = false) :
    replaceAll old new (c :: rest) (fuel + 1) = c :: replaceAll old new rest fuel := by
  rw [replaceAll, h]
  rfl

theorem doubled_backslash (rest : List Char) : doubled ('\\' :: rest) = '\\' :: '\\' :: doubled rest := rfl

theorem doubled_char {c : Char} (hc : c ≠ '\\') (rest : List Char) : doubled (c :: rest) = c :: doubled rest := by
  rw [doubled, List.flatMap_cons, if_neg hc]
  rfl

theorem replaceAll_backslash {fuel : Nat} {s : List Char} (hfuel : s.length ≤ fuel) :
    replaceAll ['\\'] ['\\', '\\'] s fuel = doubled s := by
  induction s generalizing fuel with
  | nil => cases fuel <;> rfl
  | cons c s ih =>
    obtain ⟨fuel, rfl⟩ := Nat.exists_eq_add_of_le' (Nat.lt_of_lt_of_le (Nat.succ_pos _) hfuel)
    have hrest := ih (Nat.le_of_succ_le_succ hfuel)
    by_cases hc : c = '\\'
    · subst hc
      rw [doubled_backslash, ← hrest]
      rfl
    · rw [doubled_char hc, ← hrest]
      exact replaceAll_skip (by simp [List.isPrefixOf, Ne.symm hc])

/-- Doubling backslashes makes no quotes. -/
theorem doubled_take {s : List Char} {n : Nat} (h : (doubled s).take n = List.replicate n '"') :
    s.take n = List.replicate n '"' := by
  induction n generalizing s with
  | zero => rfl
  | succ n ih =>
    cases s with
    | nil => cases h
    | cons c s =>
      by_cases hc : c = '\\'
      · subst hc
        simp [doubled, List.replicate_succ] at h
      · rw [doubled_char hc, List.take_succ_cons, List.replicate_succ, List.cons.injEq] at h
        rw [List.take_succ_cons, List.replicate_succ, h.1, ih h.2]

theorem replaceAll_quotes {s : List Char} : ∀ {fuel : Nat}, (doubled s).length ≤ fuel →
    replaceAll quotes.toList ['\\', '"', '\\', '"', '\\', '"'] (doubled s) fuel = escaped s := by
  have hquotes : quotes.toList = ['"', '"', '"'] := rfl
  rw [hquotes]
  fun_induction escaped s with
  | case1 rest ih =>
    intro fuel hfuel
    rw [doubled_char (by decide), doubled_char (by decide), doubled_char (by decide)] at hfuel ⊢
    obtain ⟨fuel, rfl⟩ := Nat.exists_eq_add_of_le' (Nat.lt_of_lt_of_le (Nat.succ_pos _) hfuel)
    rw [← @ih fuel (by simp only [List.length_cons] at hfuel; omega)]
    rfl
  | case2 rest ih =>
    intro fuel hfuel
    rw [doubled_backslash] at hfuel ⊢
    obtain ⟨fuel, rfl⟩ := Nat.exists_eq_add_of_le' (Nat.lt_of_lt_of_le (Nat.lt_add_of_pos_left (Nat.succ_pos _)) hfuel)
    rw [← @ih fuel (by simp only [List.length_cons] at hfuel; omega)]
    rfl
  | case3 c rest hrun hslash ih =>
    intro fuel hfuel
    rw [doubled_char hslash] at hfuel ⊢
    obtain ⟨fuel, rfl⟩ := Nat.exists_eq_add_of_le' (Nat.lt_of_lt_of_le (Nat.succ_pos _) hfuel)
    rw [replaceAll_skip, ih (Nat.le_of_succ_le_succ hfuel)]
    -- A run of quotes in the doubled text is one of the text.
    rw [Bool.eq_false_iff]
    intro hpre
    rw [List.isPrefixOf_iff_prefix, List.cons_prefix_cons] at hpre
    obtain ⟨rfl, hrest⟩ := hpre
    have htake := doubled_take (n := 2) (List.prefix_iff_eq_take.mp hrest).symm
    obtain ⟨more, rfl⟩ : ∃ more, rest = '"' :: '"' :: more :=
      ⟨rest.drop 2, by rw [← List.take_append_drop 2 rest, htake]; rfl⟩
    exact hrun more rfl rfl
  | case4 => intro fuel hfuel; cases fuel <;> rfl

/-- **The two replacements come to one pass.** -/
theorem escapeDoc_toList (doc : String) : (escapeDoc doc).toList = escaped doc.toList := by
  rw [escapeDoc, replace, replace, String.toList_ofList, String.toList_ofList]
  have hdoubled : replaceAll ['\\'] ['\\', '\\'] doc.toList (doc.toList.length + 1) = doubled doc.toList :=
    replaceAll_backslash (Nat.le_succ _)
  rw [show "\\".toList = ['\\'] from rfl, show "\\\\".toList = ['\\', '\\'] from rfl, hdoubled, String.toList_ofList]
  exact replaceAll_quotes (Nat.le_succ _)

/-! ## Lines of escaped texts -/

/-- What follows the line break that a text begins with. -/
def afterBreak : List Char → Option (List Char)
  | [] => none
  | '\r' :: '\n' :: rest => some rest
  | _ :: rest => some rest

theorem splitLinesAux_append {s : List Char} (hs : ∀ c ∈ s, isLineBreak c = false) (t line : List Char) :
    splitLinesAux (s ++ t) line = splitLinesAux t (s.reverse ++ line) := by
  induction s generalizing line with
  | nil => rfl
  | cons c s ih =>
    obtain ⟨hc, hs⟩ := List.forall_mem_cons.mp hs
    rw [List.cons_append, Source.splitLinesAux_char hc, ih hs, List.reverse_cons, List.append_assoc]
    rfl

theorem splitLinesAux_break {c : Char} {t : List Char} (hc : isLineBreak c = true) (line : List Char) :
    ∃ rest, afterBreak (c :: t) = some rest ∧ splitLinesAux (c :: t) line = line.reverse :: splitLines rest := by
  by_cases hcrlf : c = '\r' ∧ ∃ more, t = '\n' :: more
  · obtain ⟨rfl, more, rfl⟩ := hcrlf
    exact ⟨more, rfl, by rw [splitLinesAux]; rfl⟩
  · have hne : ∀ more, c = '\r' → t = '\n' :: more → False := fun more h h' => hcrlf ⟨h, more, h'⟩
    refine ⟨t, ?_, ?_⟩
    · rw [afterBreak]
      exact hne
    · rw [splitLinesAux, if_pos hc]
      · rfl
      · exact hne

/-- The lines of a text that begins with a line, up to its end or to a line break. -/
theorem splitLines_append {s : List Char} (hs : ∀ c ∈ s, isLineBreak c = false) {t : List Char}
    (ht : ∀ c ∈ t.head?, isLineBreak c = true) : splitLines (s ++ t) = match afterBreak t with
      | none => if s.isEmpty then [] else [s]
      | some rest => s :: splitLines rest := by
  rw [splitLines, splitLinesAux_append hs, List.append_nil]
  cases t with
  | nil =>
    rw [afterBreak, splitLinesAux, List.isEmpty_reverse, List.reverse_reverse]
  | cons c t =>
    obtain ⟨rest, hafter, hsplit⟩ := splitLinesAux_break (t := t) (ht c rfl) s.reverse
    rw [hafter, hsplit, List.reverse_reverse]

theorem break_ne_quote {c : Char} (hc : isLineBreak c = true) : c ≠ '"' ∧ c ≠ '\\' := by
  constructor <;> rintro rfl <;> exact absurd hc (by decide)

theorem escaped_break {c : Char} (hc : isLineBreak c = true) (t : List Char) : escaped (c :: t) = c :: escaped t :=
  escaped_char (break_ne_quote hc).2 fun he => absurd he (break_ne_quote hc).1

theorem afterBreak_escaped {t : List Char} (ht : ∀ c ∈ t.head?, isLineBreak c = true) :
    afterBreak (escaped t) = (afterBreak t).map escaped := by
  cases t with
  | nil => rfl
  | cons c t =>
    rw [escaped_break (ht c rfl)]
    by_cases hcrlf : c = '\r' ∧ ∃ more, t = '\n' :: more
    · obtain ⟨rfl, more, rfl⟩ := hcrlf
      rw [escaped_break (by decide)]
      rfl
    · have hescaped : ∀ more, c = '\r' → escaped t = '\n' :: more → False := by
        intro more hc hmore
        rcases escaped_head? t with h | h <;> rw [hmore] at h
        · obtain ⟨d, rfl⟩ := List.head?_eq_some_iff.mp h.symm
          exact hcrlf ⟨hc, d, rfl⟩
        · exact absurd (Option.some.inj h) (by decide)
      rw [afterBreak, afterBreak]
      · rfl
      · exact fun more h h' => hcrlf ⟨h, more, h'⟩
      · exact hescaped

theorem afterBreak_length {t rest : List Char} (h : afterBreak t = some rest) : rest.length < t.length := by
  unfold afterBreak at h
  split at h <;> cases h <;> simp only [List.length_cons] <;> omega

/-- A text is a line, and what is left begins with a line break. -/
theorem exists_line (s : List Char) : ∃ l t, s = l ++ t ∧ (∀ c ∈ l, isLineBreak c = false) ∧
    ∀ c ∈ t.head?, isLineBreak c = true := by
  refine ⟨s.takeWhile (!isLineBreak ·), s.dropWhile (!isLineBreak ·), List.takeWhile_append_dropWhile.symm,
    fun c hc => ?_, fun c hc => ?_⟩
  · simpa using List.mem_takeWhile_imp hc
  · have hfirst := List.head?_dropWhile_not (!isLineBreak ·) s
    rw [Option.mem_def.mp hc] at hfirst
    simpa using hfirst

/-- **The lines of an escaped text are the escaped lines.** -/
theorem splitLines_escaped (s : List Char) : splitLines (escaped s) = (splitLines s).map escaped := by
  obtain ⟨l, t, rfl, hline, hbreak⟩ := exists_line s
  have hline' : ∀ c ∈ escaped l, isLineBreak c = false := fun c hc => by
    rcases mem_escaped hc with hc | rfl
    · exact hline c hc
    · decide
  have hhead : (escaped t).head? = t.head? := by
    cases t with
    | nil => rfl
    | cons c t => rw [escaped_break (hbreak c rfl)]; rfl
  rw [escaped_append fun h => (break_ne_quote (hbreak _ h)).1 rfl, splitLines_append hline' (hhead ▸ hbreak),
    splitLines_append hline hbreak, afterBreak_escaped hbreak]
  cases hafter : afterBreak t with
  | none =>
    simp only [Option.map_none, List.isEmpty_iff, escaped_eq_nil]
    split <;> rfl
  | some rest =>
    have hshort : rest.length < (l ++ t).length := by
      rw [List.length_append]
      exact Nat.lt_add_left _ (afterBreak_length hafter)
    show escaped l :: splitLines (escaped rest) = escaped l :: (splitLines rest).map escaped
    rw [splitLines_escaped rest]
termination_by s.length

theorem flatten_splitLinesAux (s line : List Char) :
    (splitLinesAux s line).flatten = line.reverse ++ s.filter (!isLineBreak ·) := by
  fun_induction splitLinesAux s line with
  | case1 line h => simp_all
  | case2 line h => simp
  | case3 rest line ih =>
    rw [List.flatten_cons, ih, List.filter_cons_of_neg (by decide), List.filter_cons_of_neg (by decide)]
    rfl
  | case4 c rest line hne hbreak ih =>
    rw [List.flatten_cons, ih, List.filter_cons_of_neg (by simpa using hbreak)]
    rfl
  | case5 c rest line hne hbreak ih =>
    rw [ih, List.filter_cons_of_pos (by simpa using hbreak), List.reverse_cons, List.append_assoc]
    rfl

/-- The lines of a text are all of it but the line breaks. -/
theorem flatten_splitLines (s : List Char) : (splitLines s).flatten = s.filter (!isLineBreak ·) :=
  flatten_splitLinesAux s []

/-! ## Quotes at the end -/

theorem trailingQuotes_le (s : List Char) : trailingQuotes s ≤ s.length := by
  exact Nat.le_trans (List.takeWhile_prefix _).length_le (Nat.le_of_eq List.length_reverse)

/-- A quote before a text counts only when the text is nothing but quotes. -/
theorem trailingQuotes_cons (c : Char) (s : List Char) :
    trailingQuotes (c :: s) = trailingQuotes s + if c = '"' ∧ trailingQuotes s = s.length then 1 else 0 := by
  rw [trailingQuotes, trailingQuotes, List.reverse_cons, List.takeWhile_append, List.length_reverse]
  by_cases hall : (s.reverse.takeWhile (· == '"')).length = s.length
  · by_cases hc : c = '"' <;> simp [hall, hc]
  · simp [hall]

theorem trailingQuotes_char {c : Char} (hc : c ≠ '"') (s : List Char) : trailingQuotes (c :: s) = trailingQuotes s := by
  rw [trailingQuotes_cons, if_neg fun h => hc h.1, Nat.add_zero]

theorem trailingQuotes_run (s : List Char) : trailingQuotes ('"' :: '"' :: '"' :: s) % 3 = trailingQuotes s % 3 := by
  have hle := trailingQuotes_le s
  simp only [trailingQuotes_cons, List.length_cons, true_and]
  by_cases hall : trailingQuotes s = s.length
  · rw [if_pos hall, if_pos (by omega), if_pos (by omega)]
    omega
  · rw [if_neg hall, if_neg (by omega), if_neg (by omega)]
    rfl

theorem escaped_head_ne {c : Char} (hc : c ≠ '"') (s t : List Char) : (escaped (c :: s) ++ t).head? ≠ some '"' := by
  rcases escaped_head? (c :: s) with h | h <;> rw [List.head?_append, h]
  · exact fun he => hc (Option.some.inj he)
  · exact fun he => absurd (Option.some.inj he) (by decide)

theorem eq_quotes {s : List Char} (h : trailingQuotes s = s.length) : s = List.replicate s.length '"' := by
  have hlength : (s.reverse.takeWhile (· == '"')).length = s.reverse.length := h.trans List.length_reverse.symm
  have hall := List.takeWhile_eq_self_iff.mp ((List.takeWhile_prefix _).eq_of_length hlength)
  exact List.eq_replicate_iff.mpr ⟨rfl, fun c hc => beq_iff_eq.mp (hall c (List.mem_reverse.mpr hc))⟩

/-- Behind a quote that begins no run, the escaped text makes none. -/
theorem escaped_no_run {s : List Char} (hrun : ∀ more, '"' = '"' → s = '"' :: '"' :: more → False)
    (hall : trailingQuotes s ≠ s.length) (t : List Char) : (escaped s ++ t).take 2 ≠ ['"', '"'] := by
  intro htake
  match s with
  | [] => exact hall rfl
  | c :: s =>
    by_cases hc : c = '"'
    · subst hc
      match s with
      | [] => exact hall rfl
      | d :: s =>
        have hd : d ≠ '"' := fun hd => hrun s rfl (hd ▸ rfl)
        rw [escaped_char (by decide) (by simp [hd]), List.cons_append, List.take_succ_cons, List.cons.injEq] at htake
        have hhead := congrArg List.head? htake.2
        rw [List.head?_take, if_neg (by decide)] at hhead
        exact escaped_head_ne hd s t hhead
    · have hhead := congrArg List.head? htake
      rw [List.head?_take, if_neg (by decide)] at hhead
      exact escaped_head_ne hc s t hhead

/-- **What three quotes behind an escaped text close.** They close the literal when the quotes that the text ends with
are runs of three. Otherwise the literal is closed before, and some quotes are left. -/
theorem cutLiteral_escaped (s : List Char) : ∃ contents left, cutLiteral (escaped s ++ quotes.toList) =
    some (contents, left) ∧ left.length = trailingQuotes s % 3 := by
  fun_induction escaped s with
  | case1 rest ih =>
    obtain ⟨contents, left, hcut, hleft⟩ := ih
    refine ⟨'\\' :: '"' :: '\\' :: '"' :: '\\' :: '"' :: contents, left, ?_, hleft.trans (trailingQuotes_run rest).symm⟩
    rw [List.cons_append, List.cons_append, List.cons_append, List.cons_append, List.cons_append, List.cons_append,
      cutLiteral_escape, cutLiteral_escape, cutLiteral_escape, hcut]
    rfl
  | case2 rest ih =>
    obtain ⟨contents, left, hcut, hleft⟩ := ih
    refine ⟨'\\' :: '\\' :: contents, left, ?_, hleft.trans (by rw [trailingQuotes_char (by decide)])⟩
    rw [List.cons_append, List.cons_append, cutLiteral_escape, hcut]
    rfl
  | case3 c rest hrun hslash ih =>
    obtain ⟨contents, left, hcut, hleft⟩ := ih
    by_cases hc : c = '"'
    · subst hc
      by_cases hall : trailingQuotes rest = rest.length
      · -- At most one quote is left of the text, and the first three of all close the literal.
        rw [eq_quotes hall] at hrun ⊢
        match rest.length, hrun with
        | 0, _ => exact ⟨[], ['"'], rfl, rfl⟩
        | 1, _ => exact ⟨[], ['"', '"'], rfl, rfl⟩
        | n + 2, hrun => exact absurd rfl (hrun (List.replicate n '"') rfl)
      · refine ⟨'"' :: contents, left, ?_, hleft.trans (by rw [trailingQuotes_cons, if_neg fun h => hall h.2]; rfl)⟩
        rw [List.cons_append, cutLiteral_char hslash fun _ => escaped_no_run hrun hall _, hcut]
        rfl
    · refine ⟨c :: contents, left, ?_, hleft.trans (by rw [trailingQuotes_char hc])⟩
      rw [List.cons_append, cutLiteral_char hslash fun he => absurd he hc, hcut]
      rfl
  | case4 => exact ⟨[], [], rfl, rfl⟩

/-! ## Reading back -/

/-- **Escapes are read back**, but a null character stands in no literal. -/
theorem unescape_escaped [Source.CharacterNames] {s : List Char} (hs : '\r' ∉ s) : ∀ {fuel : Nat},
    (escaped s).length < fuel → Source.unescape (escaped s) fuel = if '\x00' ∈ s then none else some s := by
  fun_induction escaped s with
  | case1 rest ih =>
    intro fuel hfuel
    simp only [List.length_cons] at hfuel
    obtain ⟨fuel, rfl⟩ := Nat.exists_eq_add_of_le' (show 3 ≤ fuel by omega)
    rw [Source.unescape_simple (d := '"') rfl, Source.unescape_simple (d := '"') rfl,
      Source.unescape_simple (d := '"') rfl, ih (by simpa using hs) (by omega)]
    split <;> simp_all
  | case2 rest ih =>
    intro fuel hfuel
    simp only [List.length_cons] at hfuel
    obtain ⟨fuel, rfl⟩ := Nat.exists_eq_add_of_le' (show 1 ≤ fuel by omega)
    rw [Source.unescape_simple (d := '\\') rfl, ih (by simpa using hs) (by omega)]
    split <;> simp_all
  | case3 c rest hrun hslash ih =>
    intro fuel hfuel
    rw [List.length_cons] at hfuel
    rw [List.mem_cons, not_or] at hs
    obtain ⟨fuel, rfl⟩ := Nat.exists_eq_add_of_le' (show 1 ≤ fuel by omega)
    rw [Source.unescape_char hslash (Ne.symm hs.1), ih hs.2 (by omega)]
    by_cases hc : c = '\x00'
    · rw [if_pos hc, if_pos (List.mem_cons.mpr (.inl hc.symm))]
    · rw [if_neg hc]
      split <;> simp_all [Ne.symm hc]
  | case4 =>
    intro fuel hfuel
    obtain ⟨fuel, rfl⟩ := Nat.exists_eq_add_of_le' (show 1 ≤ fuel by exact hfuel)
    rfl

/-- **What an escaped text between quotes denotes.** -/
theorem denotes_escaped [Source.CharacterNames] {s value : List Char} (hs : '\r' ∉ s) :
    Denotes (quotes.toList ++ escaped s ++ quotes.toList) value ↔
      value = s ∧ '\x00' ∉ s ∧ trailingQuotes s % 3 = 0 := by
  obtain ⟨contents, left, hcut, hleft⟩ := cutLiteral_escaped s
  have hread := unescape_escaped hs (Nat.lt_succ_self (escaped s).length)
  constructor
  · rintro ⟨body, found, hliteral, hfound, hvalue⟩
    rw [List.append_assoc, List.append_cancel_left_eq] at hliteral
    rw [← hliteral, hcut, Option.some.injEq, Prod.mk.injEq] at hfound
    obtain ⟨rfl, rfl⟩ := hfound
    obtain rfl : escaped s = contents := by
      have hparts := cutLiteral_eq hcut
      rwa [List.append_nil, List.append_cancel_right_eq] at hparts
    rw [hread] at hvalue
    split at hvalue
    next => cases hvalue
    next hnull => exact ⟨(Option.some.inj hvalue).symm, hnull, hleft.symm⟩
  · rintro ⟨rfl, hnull, hquotes⟩
    obtain rfl : left = [] := List.eq_nil_of_length_eq_zero (hleft.trans hquotes)
    obtain rfl : escaped value = contents := by
      have hparts := cutLiteral_eq hcut
      rwa [List.append_nil, List.append_cancel_right_eq] at hparts
    rw [if_neg hnull] at hread
    exact ⟨_, _, List.append_assoc _ _ _, hcut, hread⟩

/-! ## Layouts -/

theorem layoutAll_ofLines (indent : String) (level : Nat) : ∀ (texts before : List String),
    Code.layoutAll indent level before (Code.ofLines texts) = before ++ texts.map (Code.indented indent level)
  | [], before => (List.append_nil before).symm
  | text :: rest, before => by
    show Code.layoutAll indent level (before ++ [Code.indented indent level text]) (Code.ofLines rest) = _
    rw [layoutAll_ofLines indent level rest, List.append_assoc]
    rfl

/-- The indentation of a level. -/
def pad (indent : String) (level : Nat) : List Char := (String.join (List.replicate level indent)).toList

/-- A line behind an indentation; a blank line has none. -/
def behind (pad line : List Char) : List Char := if line.isEmpty then [] else pad ++ line

/-- What a docstring holds: one line as it is, but several lines each behind a line feed and its indentation, and then
the indentation of the closing quotes. -/
def docValue (pad : List Char) : List (List Char) → List Char
  | [line] => line
  | lines => lines.flatMap (fun line => '\n' :: behind pad line) ++ '\n' :: pad

variable {indent doc : String} {level : Nat} {margin : List Char} {lines : List (List Char)}

theorem mem_pad (h : ∀ c ∈ indent.toList, c = ' ' ∨ c = '\t') : ∀ c ∈ pad indent level, c = ' ' ∨ c = '\t' := by
  intro c hc
  rw [pad, String.toList_join, List.mem_flatMap] at hc
  obtain ⟨text, htext, hc⟩ := hc
  rw [List.eq_of_mem_replicate htext] at hc
  exact h c hc

theorem toList_indented (text : String) : (Code.indented indent level text).toList = behind (pad indent level) text.toList := by
  simp only [Code.indented, behind, List.isEmpty_iff, String.toList_eq_nil_iff, String.isEmpty_iff]
  split
  · rfl
  · exact String.toList_append

theorem toList_join_cons (first : String) (rest : List String) :
    (Text.join "\n" (first :: rest)).toList = first.toList ++ rest.flatMap fun text => '\n' :: text.toList := by
  induction rest generalizing first with
  | nil => rw [Text.join, String.intercalate_singleton, List.flatMap_nil, List.append_nil]
  | cons second rest ih =>
    rw [Text.join, String.intercalate_cons_cons, String.toList_append, String.toList_append, List.flatMap_cons,
      List.cons_append, ← ih second, List.append_assoc]
    rfl

theorem escaped_behind (hmargin : ∀ c ∈ margin, c = ' ' ∨ c = '\t') (line : List Char) :
    escaped (behind margin line) = behind margin (escaped line) := by
  have hplain : ∀ c ∈ margin, c ≠ '"' ∧ c ≠ '\\' := fun c hc => by
    rcases hmargin c hc with rfl | rfl <;> decide
  simp only [behind, List.isEmpty_iff, escaped_eq_nil]
  split
  · rfl
  · exact escaped_plain_append hplain line

/-- Lines are escaped one by one. -/
theorem escaped_block (hmargin : ∀ c ∈ margin, c = ' ' ∨ c = '\t') (lines : List (List Char)) :
    escaped (lines.flatMap (fun line => '\n' :: behind margin line) ++ '\n' :: margin) =
      lines.flatMap (fun line => '\n' :: behind margin (escaped line)) ++ '\n' :: margin := by
  induction lines with
  | nil =>
    have hplain : ∀ c ∈ '\n' :: margin, c ≠ '"' ∧ c ≠ '\\' := List.forall_mem_cons.mpr ⟨by decide, fun c hc => by
      rcases hmargin c hc with rfl | rfl <;> decide⟩
    exact escaped_plain hplain
  | cons line lines ih =>
    have hbreak : (lines.flatMap (fun line => '\n' :: behind margin line) ++ '\n' :: margin).head? ≠ some '"' := by
      cases lines <;> simp
    rw [List.flatMap_cons, List.append_assoc, escaped_append hbreak, escaped_break (by decide), escaped_behind hmargin, ih]
    rw [List.flatMap_cons, List.append_assoc]

theorem escaped_docValue (hmargin : ∀ c ∈ margin, c = ' ' ∨ c = '\t') (lines : List (List Char)) :
    escaped (docValue margin lines) = docValue margin (lines.map escaped) := by
  match lines with
  | [] => exact escaped_block hmargin []
  | [line] => rfl
  | first :: second :: rest =>
    rw [docValue, escaped_block hmargin, ← List.flatMap_map (f := escaped) (g := fun line => '\n' :: behind margin line)]
    · rfl
    · simp

theorem behind_quotes (margin t : List Char) : behind margin (quotes.toList ++ t) = margin ++ (quotes.toList ++ t) :=
  if_neg (by simp [quotes])

theorem text_of_one (line : List Char) :
    (Text.join "\n" ([quotes ++ String.ofList line ++ quotes].map (Code.indented indent level))).toList =
      pad indent level ++ (quotes.toList ++ line ++ quotes.toList) := by
  rw [List.map_singleton, toList_join_cons, List.flatMap_nil, List.append_nil, toList_indented, String.toList_append,
    String.toList_append, String.toList_ofList, List.append_assoc, behind_quotes]

theorem text_of_several (lines : List (List Char)) :
    (Text.join "\n" ((quotes :: lines.map String.ofList ++ [quotes]).map (Code.indented indent level))).toList =
      pad indent level ++ (quotes.toList ++
        (lines.flatMap (fun line => '\n' :: behind (pad indent level) line) ++ '\n' :: pad indent level) ++
          quotes.toList) := by
  have hquotes : behind (pad indent level) quotes.toList = pad indent level ++ quotes.toList := by
    simpa using behind_quotes (pad indent level) []
  rw [List.cons_append, List.map_cons, toList_join_cons, toList_indented, hquotes, List.map_append, List.flatMap_append]
  simp only [List.map_map, List.map_singleton, List.flatMap_singleton, List.flatMap_map, Function.comp_def, toList_indented,
    String.toList_ofList, hquotes, List.append_assoc, List.cons_append]

/-- The text of a docstring is its value, escaped, between quotes. -/
theorem docstring_text (hindent : ∀ c ∈ indent.toList, c = ' ' ∨ c = '\t') (hdoc : doc ≠ "") :
    (Text.join "\n" (Code.layoutAll indent level [] (Code.ofLines (docstring (some doc))))).toList = pad indent level ++
      (quotes.toList ++ escaped (docValue (pad indent level) (splitLines doc.toList)) ++ quotes.toList) := by
  have hlines : Text.lines (escapeDoc doc) = ((splitLines doc.toList).map escaped).map String.ofList := by
    rw [Text.lines, escapeDoc_toList, splitLines_escaped]
  have hempty : doc.isEmpty = false := by simpa [String.isEmpty_iff] using hdoc
  rw [layoutAll_ofLines, List.nil_append, docstring, escaped_docValue (mem_pad hindent)]
  simp only [Option.getD_some, hempty, hlines]
  generalize (splitLines doc.toList).map escaped = lines
  match lines with
  | [] => exact text_of_several []
  | [line] => exact text_of_one line
  | first :: second :: rest => exact text_of_several (first :: second :: rest)

/-- The last line of several ends with no quotes. -/
theorem trailingQuotes_block (hmargin : ∀ c ∈ margin, c = ' ' ∨ c = '\t') (s : List Char) :
    trailingQuotes (s ++ '\n' :: margin) = 0 := by
  obtain ⟨before, last, hlast⟩ : ∃ before last, '\n' :: margin = before ++ [last] :=
    ⟨_, _, (List.dropLast_append_getLast (List.cons_ne_nil '\n' margin)).symm⟩
  have hne : last ≠ '"' := by
    rintro rfl
    have hmem : '"' ∈ '\n' :: margin := hlast ▸ List.mem_append_right before (List.mem_singleton_self _)
    rcases List.mem_cons.mp hmem with h | h
    · exact absurd h (by decide)
    · exact absurd (hmargin _ h) (by decide)
  rw [hlast, trailingQuotes, ← List.append_assoc, List.reverse_append, List.reverse_singleton, List.singleton_append,
    List.takeWhile_cons_of_neg (by simpa using hne)]
  rfl

theorem trailingQuotes_docValue (hmargin : ∀ c ∈ margin, c = ' ' ∨ c = '\t') (lines : List (List Char)) :
    trailingQuotes (docValue margin lines) % 3 = 0 ↔ ∀ line, lines = [line] → trailingQuotes line % 3 = 0 := by
  match lines with
  | [] => exact iff_of_true (congrArg (· % 3) (trailingQuotes_block hmargin _)) nofun
  | [line] => exact ⟨fun h _ he => List.singleton_inj.mp he ▸ h, fun h => h line rfl⟩
  | first :: second :: rest => exact iff_of_true (congrArg (· % 3) (trailingQuotes_block hmargin _)) nofun

/-- But for the layout, a docstring holds the characters of the lines. -/
theorem mem_docValue {c : Char} (hmargin : c ∉ margin) (hc : c ≠ '\n') (lines : List (List Char)) :
    c ∈ docValue margin lines ↔ c ∈ lines.flatten := by
  have hblock : c ∈ lines.flatMap (fun line => '\n' :: behind margin line) ++ '\n' :: margin ↔ c ∈ lines.flatten := by
    have hbehind (line : List Char) : c ∈ behind margin line ↔ c ∈ line := by
      rw [behind]
      split <;> simp_all
    simp [hc, hmargin, hbehind]
  match lines with
  | [] => exact hblock
  | [line] => simp [docValue]
  | first :: second :: rest => exact hblock

/-- **What a docstring denotes.** The lines of the docstring of a documentation that is not empty, laid out at any
level, are one literal between three quotes for the lines of the documentation just when these close it: otherwise they
are no literal at all, for the quotes at the end of a single line close it too soon, or a null character stands in it. -/
theorem docstring_denotes [Source.CharacterNames] {indent doc : String} (level : Nat)
    (hindent : ∀ c ∈ indent.toList, c = ' ' ∨ c = '\t') (hdoc : doc ≠ "") : ∃ literal,
    (Text.join "\n" (Code.layoutAll indent level [] (Code.ofLines (docstring (some doc))))).toList =
      pad indent level ++ literal ∧
    ∀ value, Denotes literal value ↔
      value = docValue (pad indent level) (splitLines doc.toList) ∧ Closes doc.toList := by
  have hmargin : ∀ c ∈ pad indent level, c = ' ' ∨ c = '\t' := mem_pad hindent
  have hmem {c : Char} (hblank : c ≠ ' ' ∧ c ≠ '\t') (hfeed : c ≠ '\n') :
      c ∈ docValue (pad indent level) (splitLines doc.toList) ↔ c ∈ doc.toList ∧ isLineBreak c = false := by
    rw [mem_docValue (fun h => (hmargin c h).elim hblank.1 hblank.2) hfeed, flatten_splitLines, List.mem_filter,
      Bool.not_eq_true']
  have hreturn : '\r' ∉ docValue (pad indent level) (splitLines doc.toList) := fun h =>
    absurd ((hmem (by decide) (by decide)).mp h).2 (by decide)
  have hnull : '\x00' ∈ docValue (pad indent level) (splitLines doc.toList) ↔ '\x00' ∈ doc.toList :=
    (hmem (by decide) (by decide)).trans (and_iff_left (by decide))
  refine ⟨_, docstring_text hindent hdoc, fun value => ?_⟩
  rw [denotes_escaped hreturn, hnull, trailingQuotes_docValue hmargin, Closes]

/-- The docstring of two lines, with quotes inside the first one and a run of quotes as the second one. -/
theorem docstring_denotes_quoted :
    (∀ c ∈ "    ".toList, c = ' ' ∨ c = '\t') ∧ "a \"b\".\n\"\"\"" ≠ "" ∧ ∃ literal,
    (Text.join "\n" (Code.layoutAll "    " 1 [] (Code.ofLines (docstring (some "a \"b\".\n\"\"\""))))).toList =
      pad "    " 1 ++ literal ∧ Denotes literal "\n    a \"b\".\n    \"\"\"\n    ".toList := by
  have hindent : ∀ c ∈ "    ".toList, c = ' ' ∨ c = '\t' := by simp
  have hdoc : "a \"b\".\n\"\"\"" ≠ "" := by decide
  obtain ⟨literal, htext, hdenotes⟩ := docstring_denotes 1 hindent hdoc
  have hlines : (splitLines "a \"b\".\n\"\"\"".toList).length = 2 := by decide
  refine ⟨hindent, hdoc, literal, htext, (hdenotes _).mpr ⟨by decide, by decide, fun line hline => ?_⟩⟩
  rw [hline] at hlines
  cases hlines

/-- The quote at the end of a line closes the literal too soon. -/
theorem docstring_unclosed : ¬ ∃ value,
    Denotes (Text.join "\n" (Code.layoutAll "    " 0 [] (Code.ofLines (docstring (some "say \"hi\""))))).toList value := by
  rintro ⟨value, body, contents, hliteral, hcut, -⟩
  have htext : (Text.join "\n" (Code.layoutAll "    " 0 [] (Code.ofLines (docstring (some "say \"hi\""))))).toList =
      quotes.toList ++ "say \"hi\"\"\"\"".toList := by
    decide +kernel
  have hearly : cutLiteral "say \"hi\"\"\"\"".toList = some ("say \"hi".toList, ['"']) := by decide
  rw [htext, List.append_cancel_left_eq] at hliteral
  rw [← hliteral, hearly] at hcut
  cases hcut

end ProtoBind.Codegen
