/-
Comments that trail and comments that stand alone.

Whether a comment trails is read off a table of lines, which is cut at every
kind of line break, while the line of the comment was counted in line feeds.
Where the text before a comment has no other breaks, the two agree: what the
table has before the comment is what stands on its own line (`before_eq`). So
there a comment trails exactly when something stands before it, and nothing
that follows a declaration on its line documents the next one
(`trailing_iff_preceded`). A form feed on a line before the comment is enough
to make it the documentation of the line below.
-/
import ProtoBind.Proofs.Source.Tiling
import ProtoBind.Source.Doc

namespace ProtoBind.Source

open Text

/-! ## Lines -/

/-- All line breaks are line feeds, alone or behind a carriage return. -/
def plainBreaks : List Char → Bool
  | [] => true
  | '\r' :: '\n' :: rest => plainBreaks rest
  | c :: rest => (c == '\n' || !isLineBreak c) && plainBreaks rest

theorem splitLinesAux_lineFeed (s line : List Char) :
    splitLinesAux ('\n' :: s) line = line.reverse :: splitLinesAux s [] := by
  rw [splitLinesAux, if_pos (by decide)]
  exact fun _ he => absurd he (by decide)

theorem splitLinesAux_char {c : Char} (hc : isLineBreak c = false) (s line : List Char) :
    splitLinesAux (c :: s) line = splitLinesAux s (c :: line) := by
  rw [splitLinesAux, if_neg (by simp [hc])]
  rintro _ rfl
  cases hc

/-- The first line of the table begins with what there is of it already. -/
theorem splitLinesAux_first (s line : List Char) :
    ((splitLinesAux s line).getD 0 []).take line.length = line.reverse := by
  fun_induction splitLinesAux s line with
  | case1 line h =>
    rw [List.isEmpty_iff] at h
    rw [h]
    rfl
  | case2 line h => exact List.take_of_length_le (by simp)
  | case3 rest line ih => exact List.take_of_length_le (by simp)
  | case4 c rest line hne hbreak ih => exact List.take_of_length_le (by simp)
  | case5 c rest line hne hbreak ih =>
    have hshort := congrArg (List.take line.length) ih
    rw [List.take_take, List.length_cons, Nat.min_eq_left (Nat.le_succ _), List.reverse_cons] at hshort
    rw [hshort, List.take_left' (List.length_reverse)]

theorem getD_cons_sub {α : Type} {x d : α} {l : List α} {m n : Nat} (h : n + 1 ≤ m) :
    (x :: l).getD (m - n) d = l.getD (m - (n + 1)) d := by
  obtain ⟨k, rfl⟩ := Nat.exists_eq_add_of_le h
  rw [show n + 1 + k - n = k + 1 by omega, Nat.add_sub_cancel_left, List.getD_cons_succ]

/-- Where the table and the lexer agree on the breaks, the table has the line that the lexer counts: it begins with
what stands behind the last line feed. `line` is the line that was begun, in reverse. -/
theorem splitLinesAux_place (rest : List Char) : ∀ (pre line : List Char) (number : Nat), plainBreaks pre = true →
    '\n' ∉ line →
    ((splitLinesAux (pre ++ rest) line).getD ((place number (line.length + 1) pre).1 - number) []).take
      ((place number (line.length + 1) pre).2 - 1) = ownLine (line.reverse ++ pre) := by
  intro pre
  induction pre using plainBreaks.induct with
  | case1 =>
    intro line number _ hline
    rw [place, Nat.sub_self, List.nil_append, List.append_nil, ownLine_of_notMem (by simpa using hline)]
    exact splitLinesAux_first rest line
  | case2 pre ih =>
    intro line number hpre hline
    rw [plainBreaks] at hpre
    have hplace : place number (line.length + 1) ('\r' :: '\n' :: pre) = place (number + 1) 1 pre := rfl
    have hsplit : splitLinesAux ('\r' :: '\n' :: pre ++ rest) line = line.reverse :: splitLinesAux (pre ++ rest) [] := rfl
    rw [hplace, hsplit, getD_cons_sub (place_ge pre _ _), ← List.singleton_append (x := '\r'), ← List.append_assoc,
      ownLine_lineFeed]
    exact ih [] (number + 1) hpre List.not_mem_nil
  | case3 c pre hne ih =>
    intro line number hpre hline
    rw [plainBreaks, Bool.and_eq_true, Bool.or_eq_true, beq_iff_eq, Bool.not_eq_true'] at hpre
    · obtain ⟨rfl | hc, hpre⟩ := hpre
      · rw [List.cons_append, splitLinesAux_lineFeed, place, if_pos (by rfl), getD_cons_sub (place_ge pre _ _),
          ownLine_lineFeed]
        exact ih [] (number + 1) hpre List.not_mem_nil
      · have hfeed : c ≠ '\n' := by
          rintro rfl
          cases hc
        have hnext := ih (c :: line) number hpre (by simpa [Ne.symm hfeed] using hline)
        rw [List.reverse_cons, List.append_assoc, List.singleton_append] at hnext
        rw [List.cons_append, splitLinesAux_char hc, place, if_neg (by simpa using hfeed)]
        exact hnext
    · exact hne

/-- What the table has before a comment is what stands there on its own line. -/
theorem before_eq {c : Comment} {pre text : List Char} (h : c.Behind pre text) (hpre : plainBreaks pre = true) :
    DocIndex.before (splitLines text) c = ownLine pre := by
  obtain ⟨⟨post, htext⟩, hplace, -⟩ := h
  have hline := splitLinesAux_place (c.text.toList ++ post) pre [] 1 hpre List.not_mem_nil
  rw [List.length_nil, Nat.zero_add, hplace, ← htext] at hline
  exact hline

/-! ## The index -/

theorem trimChars_isEmpty {s : List Char} : (trimChars s).isEmpty = true ↔ ∀ ch ∈ s, isBlank ch = true := by
  rw [trimChars, trimEnd, trimStart, List.isEmpty_iff, List.reverse_eq_nil_iff, List.dropWhile_eq_nil_iff]
  constructor
  · intro h
    cases hdrop : s.dropWhile isBlank with
    | nil => exact List.dropWhile_eq_nil_iff.mp hdrop
    | cons ch rest =>
      have hfirst := List.head?_dropWhile_not isBlank s
      rw [hdrop] at hfirst h
      exact absurd (h ch (by simp)) (by simpa using hfirst)
  · exact fun h ch hch => h ch ((List.dropWhile_suffix isBlank).subset (List.mem_reverse.mp hch))

namespace DocIndex

variable {text pre : List Char} {comments : List Comment} {c : Comment} {n : Nat}

/-- The index with one more comment. -/
def enter (lines : List (List Char)) (d : DocIndex) (c : Comment) : DocIndex :=
  if isTrailing lines c then { d with trailing := (c.line, c) :: d.trailing }
  else { d with standalone := (c.endLine, c) :: d.standalone }

theorem build_eq (text : List Char) (comments : List Comment) :
    build text comments = comments.foldl (enter (splitLines text)) ⟨[], []⟩ := rfl

theorem foldl_enter (lines : List (List Char)) (comments : List Comment) : ∀ d : DocIndex,
    comments.foldl (enter lines) d =
      ⟨((comments.filter fun c => !isTrailing lines c).map fun c => (c.endLine, c)).reverse ++ d.standalone,
        ((comments.filter (isTrailing lines)).map fun c => (c.line, c)).reverse ++ d.trailing⟩ := by
  induction comments with
  | nil => exact fun _ => rfl
  | cons c rest ih =>
    intro d
    rw [List.foldl_cons, ih, enter]
    by_cases ht : isTrailing lines c = true
    · simp [ht]
    · simp [ht]

/-- A comment is filed as it was found to be. -/
theorem mem_trailing (hc : c ∈ comments) :
    (c.line, c) ∈ (build text comments).trailing ↔ isTrailing (splitLines text) c = true := by
  simp [build_eq, foldl_enter, hc]

theorem mem_standalone : (n, c) ∈ (build text comments).standalone ↔
    n = c.endLine ∧ c ∈ comments ∧ isTrailing (splitLines text) c = false := by
  rw [build_eq, foldl_enter]
  simp only [List.append_nil, List.mem_reverse, List.mem_map, List.mem_filter, Bool.not_eq_true', Prod.mk.injEq]
  constructor
  · rintro ⟨c', ⟨hc, ht⟩, hn, rfl⟩
    exact ⟨hn.symm, hc, ht⟩
  · rintro ⟨hn, hc, ht⟩
    exact ⟨c, ⟨hc, ht⟩, hn.symm, rfl⟩

/-- The comments that stand above a line, the first of them first. -/
def above (d : DocIndex) : (fuel line : Nat) → List Comment
  | 0, _ => []
  | fuel + 1, line =>
    match d.standalone.lookup line with
    | none => []
    | some c => above d fuel (c.line - 1) ++ [c]

/-- The block that documents a declaration is made of the comments above it. -/
theorem block_eq (d : DocIndex) : ∀ (fuel line : Nat) (lines : List (List Char)),
    d.block fuel line lines = (d.above fuel line).flatMap Comment.lines ++ lines
  | 0, _, _ => rfl
  | fuel + 1, line, lines => by
    rw [block, above]
    cases d.standalone.lookup line with
    | none => rfl
    | some c => simp [block_eq d fuel (c.line - 1)]

theorem mem_above {d : DocIndex} : ∀ {fuel line : Nat}, c ∈ d.above fuel line → ∃ n, (n, c) ∈ d.standalone
  | 0, _, h => by cases h
  | fuel + 1, line, h => by
    rw [above] at h
    cases hfound : d.standalone.lookup line with
    | none =>
      rw [hfound] at h
      cases h
    | some c' =>
      rw [hfound] at h
      rcases List.mem_append.mp h with h | h
      · exact mem_above h
      · obtain rfl := List.mem_singleton.mp h
        exact ⟨line, Entries.mem_of_lookup hfound⟩

/-- Where the table and the lexer agree, a comment trails when something stands before it on its line. -/
theorem isTrailing_iff (h : c.Behind pre text) (hpre : plainBreaks pre = true) :
    isTrailing (splitLines text) c = true ↔ ∃ ch ∈ ownLine pre, isBlank ch = false := by
  rw [isTrailing, before_eq h hpre, Bool.not_eq_true', ← Bool.not_eq_true, trimChars_isEmpty]
  simp

end DocIndex

/-- **A comment trails exactly when something precedes it on its own line**, where the breaks before it are line feeds,
alone or behind carriage returns. Every comment of a text that parses stands behind what is before it; it is filed as
trailing when there is something other than blanks behind the last line feed, and as standing alone otherwise. So the
comments that document a declaration from above have nothing but blanks before them. -/
theorem trailing_iff_preceded [CharacterNames] {text : String} {decls : List Decl} {comments : List Comment}
    (h : parse text = .ok (decls, comments)) :
    let d := DocIndex.build text.toList comments
    (∀ c ∈ comments, ∃ pre, c.Behind pre text.toList) ∧
    (∀ c ∈ comments, ∀ pre, c.Behind pre text.toList → plainBreaks pre = true →
      ((c.line, c) ∈ d.trailing ↔ ∃ ch ∈ ownLine pre, isBlank ch = false) ∧
      ((c.endLine, c) ∈ d.standalone ↔ ∀ ch ∈ ownLine pre, isBlank ch = true)) ∧
    ∀ line, d.block line (line - 1) [] = (d.above line (line - 1)).flatMap Comment.lines ∧
      ∀ c ∈ d.above line (line - 1), c ∈ comments ∧ ∀ pre, c.Behind pre text.toList → plainBreaks pre = true →
        ∀ ch ∈ ownLine pre, isBlank ch = true := by
  have halone {c : Comment} {pre : List Char} (hc : c.Behind pre text.toList) (hpre : plainBreaks pre = true) :
      DocIndex.isTrailing (splitLines text.toList) c = false ↔ ∀ ch ∈ ownLine pre, isBlank ch = true := by
    rw [← Bool.not_eq_true, DocIndex.isTrailing_iff hc hpre]
    simp
  refine ⟨comments_behind h, fun c hc pre hbehind hpre => ⟨?_, ?_⟩, fun line => ⟨?_, fun c hc => ?_⟩⟩
  · rw [DocIndex.mem_trailing hc, DocIndex.isTrailing_iff hbehind hpre]
  · rw [DocIndex.mem_standalone, and_iff_right rfl, and_iff_right hc, halone hbehind hpre]
  · rw [DocIndex.block_eq, List.append_nil]
  · obtain ⟨n, hn⟩ := DocIndex.mem_above hc
    obtain ⟨-, hmem, halone'⟩ := DocIndex.mem_standalone.mp hn
    exact ⟨hmem, fun pre hbehind hpre => (halone hbehind hpre).mp halone'⟩

/-- The comments of the text of two pages. -/
def commentA : Comment := ⟨"// of A", 1, 14, 1⟩

def commentB : Comment := ⟨"// of B", 3, 14, 3⟩

theorem paged_parsed : ∃ decls, parse paged = .ok (decls, [commentA, commentB]) := by
  have hchecked := texts_checked
  simp only [Bool.and_eq_true, beq_iff_eq] at hchecked
  obtain ⟨⟨decls, comments⟩, hparsed, hcomments⟩ := Option.map_eq_some_iff.mp hchecked.2
  exact ⟨decls, hcomments ▸ eq_ok_of_toOption hparsed⟩

/-- The comment on the first page trails the message that it stands behind. -/
theorem trailing_iff_preceded_paged : ∃ decls comments, parse paged = .ok (decls, comments) ∧
    ∃ c ∈ comments, ∃ pre, c.Behind pre paged.toList ∧ plainBreaks pre = true ∧
      (∃ ch ∈ ownLine pre, isBlank ch = false) ∧
      (c.line, c) ∈ (DocIndex.build paged.toList comments).trailing := by
  obtain ⟨decls, hparse⟩ := paged_parsed
  have hbehind : commentA.Behind "message A \x7b\x7d ".toList paged.toList :=
    { text := ⟨"\n\x0c\nmessage B \x7b\x7d // of B\nmessage C \x7b\x7d".toList, by decide⟩
      place := by decide
      ends := by decide }
  have hpreceded : ∃ ch ∈ ownLine "message A \x7b\x7d ".toList, isBlank ch = false :=
    ⟨'m', by decide, by decide⟩
  refine ⟨decls, _, hparse, commentA, List.mem_cons_self, _, hbehind, by decide, hpreceded, ?_⟩
  exact ((trailing_iff_preceded hparse).2.1 _ List.mem_cons_self _ hbehind (by decide)).1.mpr hpreceded

/-- Behind the form feed the table is one line ahead: the comment behind the message on the second page is filed as
standing alone, and it documents the message below. -/
theorem trailing_misses_paged : ∃ decls comments, parse paged = .ok (decls, comments) ∧
    ∃ c ∈ comments, ∃ pre, c.Behind pre paged.toList ∧ (∃ ch ∈ ownLine pre, isBlank ch = false) ∧
      (c.line, c) ∉ (DocIndex.build paged.toList comments).trailing ∧
      (DocIndex.build paged.toList comments).docFor 3 = none ∧
      (DocIndex.build paged.toList comments).docFor 4 = some "of B" := by
  obtain ⟨decls, hparse⟩ := paged_parsed
  have hbehind : commentB.Behind "message A \x7b\x7d // of A\n\x0c\nmessage B \x7b\x7d ".toList paged.toList :=
    { text := ⟨"\nmessage C \x7b\x7d".toList, by decide⟩
      place := by decide
      ends := by decide }
  refine ⟨decls, _, hparse, commentB, by decide, _, hbehind, ⟨'m', by decide, by decide⟩, ?_, by decide,
    by decide⟩
  rw [DocIndex.mem_trailing (by decide)]
  decide

end ProtoBind.Source
