/-
What the lexer finds, without regard to places.

What stands at a place depends on the text from there on only (`next_lexeme`).
Blanks and comments are passed (`lexeme_gap`), and a token that begins a text is
found whatever follows it, as long as what follows is stopped
(`lexeme_stopped`).
-/
import ProtoBind.Proofs.Source.Matching

namespace ProtoBind.Source

open Terminal (isSpace)

/-- What stands at the beginning of a text: a token and what follows it, or nothing more. -/
inductive Lexeme
  | token (terminal : Terminal) (text : String) (after : List Char)
  | finish
  | stray

def Lexed.lexeme : Lexed → Lexeme
  | .token t after => .token t.terminal t.text after.rest
  | .finish => .finish
  | .stray _ => .stray

/-- What the lexer finds at the beginning of a text. -/
def lexeme (expected : Nat) (s : List Char) : Lexeme := ((Cursor.ofText s).next expected []).1.lexeme

variable {expected : Nat} {s g : List Char} {c : Char} {t : Terminal} {n : Nat}

theorem scan_pos (h : scan expected s = some (t, n)) : 0 < n ∧ 0 < s.length := by
  obtain ⟨-, u, -, -, -, -, hu, -, -⟩ := scan_eq_some.mp h
  refine ⟨Terminal.matchLength_pos hu, List.length_pos_iff.mpr ?_⟩
  rintro rfl
  rw [Terminal.matchLength_nil] at hu
  cases hu

theorem scan_le (h : scan expected s = some (t, n)) : n ≤ s.length := by
  obtain ⟨-, u, -, -, -, -, hu, -, -⟩ := scan_eq_some.mp h
  exact Terminal.matchLength_le hu

namespace Cursor

variable {k : Cursor} {passed : List Comment}

theorem next_nil (h : k.rest = []) : k.next expected passed = (.finish, passed) := by
  rw [Cursor.next, if_pos (by rw [h]; rfl)]

theorem next_stray (hne : k.rest ≠ []) (h : scan expected k.rest = none) : k.next expected passed = (.stray k, passed) := by
  rw [Cursor.next, if_neg (by simpa using hne), h]

/-- What is scanned is passed or found. -/
theorem next_scan (h : scan expected k.rest = some (t, n)) : k.next expected passed =
    if t = .blank then (k.advance n).next expected passed
    else if t = .comment then (k.advance n).next expected
      (⟨String.ofList (k.rest.take n), k.line, k.column, (k.advance n).line⟩ :: passed)
    else (.token ⟨t, String.ofList (k.rest.take n), k.line, k.column⟩ (k.advance n), passed) := by
  have hpos := scan_pos h
  rw [Cursor.next, if_neg (by simpa using List.length_pos_iff.mp hpos.2), h]
  dsimp only
  rw [dif_pos hpos]
  simp only [beq_iff_eq]

end Cursor

/-- What is found at a place depends on the text from there on. -/
theorem next_congr (k k' : Cursor) (passed passed' : List Comment) (hsame : k.rest = k'.rest) :
    (k.next expected passed).1.lexeme = (k'.next expected passed').1.lexeme := by
  by_cases hnil : k.rest = []
  · rw [Cursor.next_nil hnil, Cursor.next_nil (hsame ▸ hnil)]
  cases hscan : scan expected k.rest with
  | none =>
    rw [Cursor.next_stray hnil hscan, Cursor.next_stray (hsame ▸ hnil) (hsame ▸ hscan)]
    rfl
  | some found =>
    obtain ⟨t, n⟩ := found
    have hafter : (k.advance n).rest = (k'.advance n).rest := congrArg (List.drop n) hsame
    have hpos := scan_pos hscan
    have hless : (k.rest.drop n).length < k.rest.length := by
      rw [List.length_drop]
      omega
    rw [Cursor.next_scan hscan, Cursor.next_scan (k := k') (hsame ▸ hscan)]
    split
    · exact next_congr _ _ _ _ hafter
    split
    · exact next_congr _ _ _ _ hafter
    · simp only [Lexed.lexeme, hafter, hsame]
termination_by k.rest.length
decreasing_by all_goals exact hless

theorem next_lexeme (expected : Nat) (k : Cursor) (passed : List Comment) :
    (k.next expected passed).1.lexeme = lexeme expected k.rest :=
  next_congr _ _ _ _ rfl

theorem lexeme_nil : lexeme expected [] = .finish := by
  rw [lexeme, Cursor.next_nil (k := Cursor.ofText []) rfl]
  rfl

/-- What is scanned is passed or found. -/
theorem lexeme_scan (h : scan expected s = some (t, n)) : lexeme expected s =
    if t = .blank ∨ t = .comment then lexeme expected (s.drop n)
    else .token t (String.ofList (s.take n)) (s.drop n) := by
  rw [lexeme, Cursor.next_scan (k := Cursor.ofText s) h]
  by_cases hblank : t = .blank
  · rw [if_pos hblank, if_pos (.inl hblank)]
    exact next_lexeme _ _ _
  rw [if_neg hblank]
  by_cases hcomment : t = .comment
  · rw [if_pos hcomment, if_pos (.inr hcomment)]
    exact next_lexeme _ _ _
  · rw [if_neg hcomment, if_neg (not_or.mpr ⟨hblank, hcomment⟩)]
    rfl

theorem lexeme_stray (hs : s ≠ []) (h : scan expected s = none) : lexeme expected s = .stray := by
  rw [lexeme, Cursor.next_stray (k := Cursor.ofText s) hs h]
  rfl

/-! ## Stretches between tokens -/

/-- What may stand between tokens: blanks and whole comments. A line comment is closed by a line feed, and a block
comment by the first end that there is. -/
inductive Gap : List Char → Prop
  | nil : Gap []
  | blank {c : Char} {s : List Char} (hc : isSpace c = true) (rest : Gap s) : Gap (c :: s)
  | line {body s : List Char} (hbody : '\n' ∉ body) (rest : Gap s) : Gap ('/' :: '/' :: (body ++ '\n' :: s))
  | block {body s : List Char} (hbody : ¬ ['*', '/'] <:+: body) (rest : Gap s) :
      Gap ('/' :: '*' :: (body ++ '*' :: '/' :: s))

/-- What may stand at the end of a text: there a line comment need not be closed. -/
inductive LastGap : List Char → Prop
  | closed {s : List Char} (h : Gap s) : LastGap s
  | line {s body : List Char} (h : Gap s) (hbody : '\n' ∉ body) : LastGap (s ++ '/' :: '/' :: body)

theorem mem_numbered (t : Terminal) : (t, t.index) ∈ numbered := by
  cases t <;> decide

/-- Blanks and comments are scanned wherever they begin a text. -/
theorem scan_passed (ht : t = .blank ∨ t = .comment) (h : t.matchLength (c :: s) = some n) :
    scan expected (c :: s) = some (t, n) := by
  have hspecial : t.isSpecial = true := Terminal.isSpecial_iff.mpr (ht.symm.imp_right .inr |>.elim (.inr ∘ .inl) .inr)
  have htried : ∀ i, isTried expected t i = true := fun i => by rcases ht with rfl | rfl <;> rfl
  obtain ⟨hc, hkind⟩ := Terminal.special_first hspecial h
  cases hscan : scan expected (c :: s) with
  | none =>
    have hnone := List.findSome?_eq_none_iff.mp hscan _ (mem_numbered t)
    simp [htried, h] at hnone
  | some found =>
    obtain ⟨-, u, -, -, -, -, hu, hfound, -⟩ := scan_eq_some.mp hscan
    obtain rfl : u = t := (Terminal.matchLength_break hc hu).trans hkind.symm
    have hident : u ≠ .ident := by rcases ht with rfl | rfl <;> decide
    rw [if_neg hident] at hfound
    rw [← hu.symm.trans h |> Option.some.inj, ← hfound]

theorem lexeme_passed (ht : t = .blank ∨ t = .comment) (h : t.matchLength (c :: s) = some n) :
    lexeme expected (c :: s) = lexeme expected ((c :: s).drop n) := by
  rw [lexeme_scan (scan_passed ht h), if_pos ht]

theorem lexeme_blank (hc : isSpace c = true) : lexeme expected (c :: s) = lexeme expected s := by
  have hspan : ∀ {c : Char} {s : List Char}, isSpace c = true →
      lexeme expected (c :: s) = lexeme expected (s.drop (Terminal.spanLength isSpace s)) := by
    intro c s hc
    have hmatch : Terminal.blank.matchLength (c :: s) = some (Terminal.spanLength isSpace s + 1) := by
      show Terminal.positive (Terminal.spanLength isSpace (c :: s)) = _
      rw [Terminal.spanLength, if_pos hc]
      rfl
    rw [lexeme_passed (.inl rfl) hmatch, List.drop_succ_cons]
  rw [hspan hc]
  cases s with
  | nil => rfl
  | cons d s =>
    cases hd : isSpace d with
    | true =>
      rw [hspan hd, Terminal.spanLength, if_pos hd, List.drop_succ_cons]
    | false =>
      rw [Terminal.spanLength, hd]
      rfl

theorem spanLength_all {p : Char → Bool} : ∀ {s : List Char}, (∀ c ∈ s, p c = true) → Terminal.spanLength p s = s.length
  | [], _ => rfl
  | c :: s, h => by
    rw [Terminal.spanLength, if_pos (h c List.mem_cons_self), spanLength_all fun d hd => h d (List.mem_cons_of_mem c hd)]
    rfl

theorem spanLength_body {body : List Char} (hbody : '\n' ∉ body) : Terminal.spanLength (· != '\n') body = body.length :=
  spanLength_all fun _ hc => bne_iff_ne.mpr fun he => hbody (he ▸ hc)

theorem blockLength_body : ∀ {body : List Char}, ¬ ['*', '/'] <:+: body → ∀ s : List Char,
    Terminal.blockLength (body ++ '*' :: '/' :: s) = some (body.length + 2)
  | [], _, _ => rfl
  | c :: body, hbody, s => by
    have hinner : ¬ ['*', '/'] <:+: body := fun h => hbody (h.trans (List.suffix_cons c body).isInfix)
    have ih := blockLength_body hinner s
    rw [List.cons_append, Terminal.blockLength, ih]
    · rfl
    · -- The end would stand in the body already.
      intro rest hc hrest
      cases body with
      | nil => cases hrest
      | cons d body =>
        obtain rfl := hc
        obtain ⟨rfl, -⟩ := List.cons.inj hrest
        exact hbody (List.prefix_append _ body).isInfix

theorem lexeme_line {body : List Char} (hbody : '\n' ∉ body) (hs : ∀ c ∈ s.head?, c = '\n') :
    lexeme expected ('/' :: '/' :: (body ++ s)) = lexeme expected s := by
  have hmatch : Terminal.comment.matchLength ('/' :: '/' :: (body ++ s)) = some (2 + body.length) := by
    show some (2 + Terminal.spanLength (· != '\n') (body ++ s)) = _
    rw [Terminal.spanLength_stopped (fun _ hc => by rw [hs _ hc]; rfl), spanLength_body hbody]
  rw [lexeme_passed (.inr rfl) hmatch, Nat.add_comm, List.drop_succ_cons, List.drop_succ_cons, List.drop_left]

theorem lexeme_block {body : List Char} (hbody : ¬ ['*', '/'] <:+: body) :
    lexeme expected ('/' :: '*' :: (body ++ '*' :: '/' :: s)) = lexeme expected s := by
  have hmatch : Terminal.comment.matchLength ('/' :: '*' :: (body ++ '*' :: '/' :: s)) = some (body.length + 2 + 2) := by
    show (Terminal.blockLength (body ++ '*' :: '/' :: s)).map (· + 2) = _
    rw [blockLength_body hbody]
    rfl
  rw [lexeme_passed (.inr rfl) hmatch, List.drop_succ_cons, List.drop_succ_cons, ← List.drop_drop, List.drop_left]
  rfl

/-- **Blanks and comments before a text do not matter.** -/
theorem lexeme_gap (hg : Gap g) : lexeme expected (g ++ s) = lexeme expected s := by
  induction hg with
  | nil => rfl
  | blank hc rest ih => exact (lexeme_blank hc).trans ih
  | @line body g hbody rest ih =>
    have hline : '/' :: '/' :: (body ++ '\n' :: g) ++ s = '/' :: '/' :: (body ++ '\n' :: (g ++ s)) := by simp
    rw [hline, lexeme_line hbody (by simp), lexeme_blank rfl, ih]
  | @block body g hbody rest ih =>
    have hblock : '/' :: '*' :: (body ++ '*' :: '/' :: g) ++ s = '/' :: '*' :: (body ++ '*' :: '/' :: (g ++ s)) := by simp
    rw [hblock, lexeme_block hbody, ih]

theorem lexeme_last (hg : LastGap g) : lexeme expected g = .finish := by
  cases hg with
  | closed h => rw [← List.append_nil g, lexeme_gap h, lexeme_nil]
  | @line g body h hbody =>
    rw [lexeme_gap h, ← List.append_nil body, lexeme_line hbody (by simp), lexeme_nil]

/-- What begins with a stretch between tokens is stopped. -/
theorem Gap.stopped (hg : Gap g) (hne : g ≠ []) (s : List Char) : Stopped (g ++ s) := by
  cases hg with
  | nil => exact absurd rfl hne
  | blank hc rest =>
    intro c h
    cases h
    rw [isBreak, hc]
    rfl
  | line | block =>
    intro c h
    cases h
    rfl

theorem LastGap.stopped (hg : LastGap g) : Stopped g := by
  cases hg with
  | closed h =>
    by_cases hne : g = []
    · exact hne ▸ nofun
    · exact List.append_nil g ▸ h.stopped hne []
  | @line g body h hbody =>
    by_cases hne : g = []
    · subst hne
      intro c hc
      cases hc
      rfl
    · exact h.stopped hne _

/-! ## Tokens -/

/-- An identifier is never passed. -/
theorem classify_ne (expected : Nat) (text : List Char) :
    ¬ (classify expected text = .blank ∨ classify expected text = .comment) := by
  rcases word?_classify expected text with he | hword
  · rw [he]
    decide
  · rintro (he | he) <;> rw [he] at hword <;> exact hword rfl

/-- What is passed is all that begins with a blank or a slash. -/
theorem scan_first (h : scan expected (c :: s) = some (t, n)) :
    (t = .blank ∨ t = .comment) ↔ (isSpace c = true ∨ c = '/') := by
  obtain ⟨-, u, i, -, -, -, hu, rfl, -⟩ := scan_eq_some.mp h
  have hpassed : ((if u = .ident then classify expected ((c :: s).take n) else u) = .blank ∨
      (if u = .ident then classify expected ((c :: s).take n) else u) = .comment) ↔ u = .blank ∨ u = .comment := by
    split
    next hident => exact iff_of_false (classify_ne _ _) (by rw [hident]; decide)
    next => rfl
  rw [hpassed]
  constructor
  · rintro (rfl | rfl)
    · exact .inl (Terminal.blank_first hu)
    · exact .inr (Terminal.commentLength_first hu)
  · rintro (hc | rfl)
    · have hkind := Terminal.matchLength_break (by rw [isBreak, hc]; rfl) hu
      rw [if_pos hc] at hkind
      exact .inl hkind
    · exact .inr (Terminal.matchLength_break rfl hu)

/-- A token begins with no blank and no slash. -/
theorem lexeme_first {s : List Char} {text : String} {after : List Char} (h : lexeme expected s = .token t text after) :
    ∃ c rest, text.toList = c :: rest ∧ ¬ (isSpace c = true ∨ c = '/') := by
  match s with
  | [] =>
    rw [lexeme_nil] at h
    cases h
  | c :: s =>
    cases hscan : scan expected (c :: s) with
    | none =>
      rw [lexeme_stray (List.cons_ne_nil c s) hscan] at h
      cases h
    | some found =>
      obtain ⟨u, n⟩ := found
      have hpos := (scan_pos hscan).1
      rw [lexeme_scan hscan] at h
      split at h
      · exact lexeme_first h
      next hpassed =>
        cases h
        refine ⟨c, s.take (n - 1), ?_, fun hc => hpassed ((scan_first hscan).mpr hc)⟩
        rw [String.toList_ofList, List.take_cons hpos]
termination_by s.length
decreasing_by
  rw [List.length_drop, List.length_cons]
  omega

/-- A token takes something from the text. -/
theorem lexeme_shorter {s : List Char} {text : String} {after : List Char} (h : lexeme expected s = .token t text after) :
    after.length < s.length := by
  by_cases hnil : s = []
  · rw [hnil, lexeme_nil] at h
    cases h
  cases hscan : scan expected s with
  | none =>
    rw [lexeme_stray hnil hscan] at h
    cases h
  | some found =>
    obtain ⟨u, n⟩ := found
    have hpos := scan_pos hscan
    have hless : (s.drop n).length < s.length := by
      rw [List.length_drop]
      omega
    rw [lexeme_scan hscan] at h
    split at h
    · exact Nat.lt_trans (lexeme_shorter h) hless
    · cases h
      exact hless
termination_by s.length
decreasing_by exact hless

/-- **A token at the beginning of a text is found**, whatever stopped text follows in place of what followed. -/
theorem lexeme_stopped {text : String} {after p q r : List Char}
    (h : lexeme expected (text.toList ++ (p ++ q)) = .token t text after) (hr : Stopped r) :
    after = p ++ q ∧ lexeme expected (text.toList ++ (p ++ r)) = .token t text (p ++ r) := by
  obtain ⟨c, rest, htext, hc⟩ := lexeme_first h
  cases hscan : scan expected (text.toList ++ (p ++ q)) with
  | none =>
    rw [lexeme_stray (by simp [htext]) hscan] at h
    cases h
  | some found =>
    obtain ⟨u, n⟩ := found
    have hpassed : ¬ (u = .blank ∨ u = .comment) := fun hu => by
      rw [htext] at hscan
      exact hc ((scan_first hscan).mp hu)
    rw [lexeme_scan hscan, if_neg hpassed] at h
    obtain ⟨rfl, hfound, rfl⟩ := Lexeme.token.inj h
    have hle := scan_le hscan
    obtain rfl : n = text.toList.length := by
      have hlength := congrArg (·.toList.length) hfound
      rw [String.toList_ofList, List.length_take] at hlength
      omega
    rw [List.drop_left]
    refine ⟨rfl, ?_⟩
    rw [← List.append_assoc] at hscan ⊢
    have hstays := scan_stopped hscan (by rw [List.length_append]; omega) (not_or.mp hpassed) hr
    rw [lexeme_scan hstays, if_neg hpassed, List.append_assoc, List.drop_left, List.take_left, String.ofList_toList]

end ProtoBind.Source
