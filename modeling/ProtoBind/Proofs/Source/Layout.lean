/-
Layout does not matter to the parser.

Two texts of the same tokens in the same order, with other blanks and comments
between them, are parsed side by side (`run_relaid`): the two machines have the
same states on their stacks and hold the same tokens, whatever their places
(`Twin`), because every token that the one finds is found by the other. So the
trees are the same without places, and the declarations are the same without
lines (`parse_relaid`).
-/
import ProtoBind.Proofs.Results
import ProtoBind.Proofs.Source.Bare
import ProtoBind.Proofs.Source.Lexemes
import ProtoBind.Proofs.Source.Moves
import ProtoBind.Proofs.Source.Names

namespace ProtoBind.Source

/-! ## Layouts -/

/-- Two texts of the same tokens, laid out in two ways: before each token stands a stretch that may stand between
tokens, in both texts, and it is not empty in the second where it is not in the first. -/
inductive Relaid : List String → List Char → List Char → Prop
  | last {g g' : List Char} (hg : LastGap g) (hg' : LastGap g') : Relaid [] g g'
  | token {text : String} {texts : List String} {g g' s s' : List Char} (hg : Gap g) (hg' : Gap g')
      (hne : g ≠ [] → g' ≠ []) (rest : Relaid texts s s') :
      Relaid (text :: texts) (g ++ (text.toList ++ s)) (g' ++ (text.toList ++ s'))

variable {texts : List String} {s s' : List Char}

/-- Two layouts are the same up to a place where the second is stopped. -/
theorem Relaid.exists_stopped (h : Relaid texts s s') : ∃ p q r, s = p ++ q ∧ s' = p ++ r ∧ Stopped r := by
  induction h with
  | last hg hg' => exact ⟨[], _, _, rfl, rfl, hg'.stopped⟩
  | @token text texts g g' s s' hg hg' hne rest ih =>
    by_cases hempty : g' = []
    · obtain ⟨p, q, r, rfl, rfl, hr⟩ := ih
      obtain rfl : g = [] := Classical.byContradiction fun h => hne h hempty
      subst hempty
      exact ⟨text.toList ++ p, q, r, by simp, by simp, hr⟩
    · exact ⟨[], _, _, rfl, rfl, hg'.stopped hempty _⟩

/-- **A token that is found in the one text is found in the other.** -/
theorem Relaid.lexeme {text : String} {expected : Nat} {t : Terminal} {after : List Char}
    (h : Relaid (text :: texts) s s') (hfound : lexeme expected s = .token t text after) :
    ∃ after', lexeme expected s' = .token t text after' ∧ Relaid texts after after' := by
  cases h with
  | @token _ _ g g' s s' hg hg' hne rest =>
    obtain ⟨p, q, r, rfl, rfl, hr⟩ := rest.exists_stopped
    rw [lexeme_gap hg] at hfound
    obtain ⟨rfl, hstays⟩ := lexeme_stopped hfound hr
    exact ⟨p ++ r, by rw [lexeme_gap hg', hstays], rest⟩

/-! ## Machines side by side -/

/-- The end is never shifted. -/
def Tables.Ending (tables : Tables) : Prop :=
  ∀ {s : Nat} {state : Grammar.State}, tables.states[s]? = some state →
    ∀ target, state.action Terminal.count ≠ .shift target

theorem bareTrees_append (ts us : List Tree) : bareTrees (ts ++ us) = bareTrees ts ++ bareTrees us := by
  simp only [bareTrees_eq, List.map_append]

theorem bareTrees_flatMap (frames : List Frame) :
    bareTrees (frames.flatMap Frame.forest) = (frames.map Frame.bare).flatMap Frame.forest := by
  simp only [bareTrees_eq, List.map_flatMap, List.flatMap_map, Frame.bare]

namespace Machine

variable {tables : Tables} {state : Grammar.State} {m m' m₁ : Machine} {forest : List Tree} {comments : List Comment}
  {texts : List String} {fuel i : Nat}

theorem bareTrees_reduced (lhs : Nat) (forest : List Tree) :
    bareTrees (reduced tables lhs forest) = reduced tables lhs (bareTrees forest) := by
  unfold reduced
  split <;> rfl

theorem topState_bare (stack : List Frame) : topState (stack.map Frame.bare) = topState stack := by
  cases stack <;> rfl

/-- Two machines in the same states with the same tokens, up to places, before two layouts of the same texts. -/
structure Twin (texts : List String) (m m' : Machine) : Prop where
  stack : m'.stack.map Frame.bare = m.stack.map Frame.bare
  held : m'.held.bare = m.held.bare
  rest : Relaid texts m.cursor.rest m'.cursor.rest

namespace Twin

theorem topState_drop (h : Twin texts m m') (n : Nat) : topState (m'.stack.drop n) = topState (m.stack.drop n) := by
  rw [← topState_bare, ← topState_bare (m.stack.drop n), List.map_drop, List.map_drop, h.stack]

theorem index? (h : Twin texts m m') : m'.held.index? = m.held.index? := by
  have hbare : ∀ held : Held, held.bare.index? = held.index? := fun held => by cases held <;> rfl
  rw [← hbare, h.held, hbare]

theorem leaves (h : Twin texts m m') : bareTrees m'.held.leaves = bareTrees m.held.leaves := by
  have hbare : ∀ held : Held, bareTrees held.leaves = held.bare.leaves := fun held => by cases held <;> rfl
  rw [hbare, h.held, hbare]

theorem shift (h : Twin texts m m') (target : Nat) : Twin texts (m.shift target) (m'.shift target) where
  stack := by
    simp only [Machine.shift, List.map_cons, Frame.bare, h.stack, h.leaves]
  held := rfl
  rest := h.rest

theorem reduce (h : Twin texts m m') (production : Grammar.Production) (target : Nat) :
    Twin texts (m.reduce tables production target) (m'.reduce tables production target) where
  stack := by
    simp only [Machine.reduce, List.map_cons, Frame.bare, bareTrees_reduced, bareTrees_flatMap, List.map_reverse,
      List.map_take, List.map_drop]
    rw [h.stack]
  held := h.held
  rest := h.rest

theorem grown (h : Twin texts m m') : bareTrees m'.grown = bareTrees m.grown := by
  rw [Machine.grown, Machine.grown, bareTrees_flatMap, bareTrees_flatMap, List.map_reverse, List.map_reverse, h.stack]

/-- Where the one machine goes on, the other does, with the same tokens. -/
theorem act (h : Twin texts m m') (hact : Machine.act tables state m i m.held.leaves = .next m₁) :
    ∃ m₁', Machine.act tables state m' i m'.held.leaves = .next m₁' ∧ Twin texts m₁ m₁' := by
  rcases act_cases tables state m i with ⟨target, haction, hnext⟩ | ⟨p, production, goto, haction, hp, hgoto, hnext⟩ |
    ⟨-, hnext⟩ | hnext
  · cases hact.symm.trans hnext
    exact ⟨_, act_shift haction, h.shift target⟩
  · cases hact.symm.trans hnext
    rw [gotoBehind, ← h.topState_drop] at hgoto
    exact ⟨_, act_reduce haction hp hgoto, h.reduce production goto.target⟩
  · cases hact.symm.trans hnext
  · cases hact.symm.trans hnext

/-- Where the one machine finds a token, the other finds it. -/
theorem find_token {t : Token} {after : Cursor} {passed : List Comment} (h : Twin (t.text :: texts) m m')
    (hnext : m.cursor.next state.expected m.comments = (.token t after, passed)) :
    ∃ m₁', find state m' = .next m₁' ∧ Twin texts (m.took t after passed) m₁' := by
  have hlexeme := next_lexeme state.expected m.cursor m.comments
  rw [hnext] at hlexeme
  obtain ⟨rest', hlexeme', hrest⟩ := h.rest.lexeme hlexeme.symm
  rw [← next_lexeme state.expected m'.cursor m'.comments] at hlexeme'
  rcases hnext' : m'.cursor.next state.expected m'.comments with ⟨found, passed'⟩
  rw [hnext'] at hlexeme'
  cases found with
  | token t' after' =>
    obtain ⟨hterminal, htext, rfl⟩ := Lexeme.token.inj hlexeme'
    refine ⟨_, Machine.find_token hnext', h.stack, ?_, hrest⟩
    show Held.token t'.bare = Held.token t.bare
    rw [Token.bare, Token.bare, hterminal, htext]
  | finish | stray => cases hlexeme'

/-- Where the one machine finds the end, the other finds it. -/
theorem find_finish (h : Twin [] m m') (passed : List Comment) :
    ∃ m₁', find state m' = .next m₁' ∧ Twin [] (m.ended passed) m₁' := by
  have hlast : LastGap m'.cursor.rest := by
    cases h.rest with
    | last hg hg' => exact hg'
  have hlexeme := next_lexeme state.expected m'.cursor m'.comments
  rw [lexeme_last hlast] at hlexeme
  rcases hnext : m'.cursor.next state.expected m'.comments with ⟨found, passed'⟩
  rw [hnext] at hlexeme
  cases found with
  | finish => exact ⟨_, Machine.find_finish hnext, h.stack, rfl, h.rest⟩
  | token | stray => cases hlexeme

end Twin

/-- What was found is among the tokens of the parse, unless it ended before what is held. -/
theorem run_texts (h : run tables fuel m = .ok (forest, comments)) :
    m.texts <+: textsOf forest ∨ textsOf forest = textsOf m.grown := by
  induction fuel generalizing m with
  | zero => cases h
  | succ fuel ih =>
    rw [run] at h
    cases hstep : step tables m with
    | failed =>
      rw [hstep] at h
      cases h
    | done =>
      rw [hstep] at h
      cases h
      obtain ⟨-, -, -, -, -, hgrown, -⟩ := step_done hstep
      exact .inr (congrArg textsOf hgrown)
    | next m₁ =>
      rw [hstep] at h
      obtain ⟨state, -, ⟨hheld, hfind⟩ | ⟨i, -, hact⟩⟩ := step_next hstep
      · have hgrown : m₁.grown = m.grown := by rcases find_next hfind with ⟨_, _, _, -, rfl⟩ | ⟨_, -, rfl⟩ <;> rfl
        rcases ih h with hprefix | hsame
        · rw [Machine.texts, hgrown, ← texts_nothing hheld] at hprefix
          exact .inl ((List.prefix_append _ _).trans hprefix)
        · exact .inr (hgrown ▸ hsame)
      · obtain ⟨htexts, hkept⟩ := act_texts hact
        rcases ih h with hprefix | hsame
        · exact .inl (htexts ▸ hprefix)
        · rcases hkept with hnothing | ⟨hgrown, -⟩
          · have htaken : m.texts = textsOf forest := by rw [hsame, ← htexts, texts_nothing hnothing]
            exact .inl (htaken ▸ List.prefix_refl _)
          · exact .inr (hsame.trans hgrown)

/-- Behind the end of the text there is no token. -/
theorem run_finish (hend : tables.Ending) (hheld : m.held = .finish) (h : run tables fuel m = .ok (forest, comments)) :
    textsOf forest = textsOf m.grown := by
  induction fuel generalizing m with
  | zero => cases h
  | succ fuel ih =>
    rw [run] at h
    cases hstep : step tables m with
    | failed =>
      rw [hstep] at h
      cases h
    | done =>
      rw [hstep] at h
      cases h
      obtain ⟨-, -, -, -, -, hgrown, -⟩ := step_done hstep
      exact congrArg textsOf hgrown
    | next m₁ =>
      rw [hstep] at h
      obtain ⟨state, hs, ⟨hnothing, -⟩ | ⟨i, hi, hact⟩⟩ := step_next hstep
      · rw [hheld] at hnothing
        cases hnothing
      · rw [hheld] at hi
        cases hi
        rcases act_cases tables state m Terminal.count with ⟨target, hshift, -⟩ | ⟨p, production, goto, -, -, -, hnext⟩ |
          ⟨-, hnext⟩ | hnext
        · exact absurd hshift (hend hs target)
        · obtain ⟨-, hnothing | ⟨hgrown, hsame⟩⟩ := act_texts hact
          · cases hact.symm.trans hnext
            rw [Machine.reduce, hheld] at hnothing
            cases hnothing
          · exact (ih (hsame.trans hheld) h).trans hgrown
        · cases hact.symm.trans hnext
        · cases hact.symm.trans hnext

/-- **Two machines side by side come to the same trees**, up to places. -/
theorem run_relaid (hend : tables.Ending) (h : Twin texts m m') (hrun : run tables fuel m = .ok (forest, comments))
    (htexts : textsOf forest = m.texts ++ texts) :
    ∃ forest' comments', run tables fuel m' = .ok (forest', comments') ∧ bareTrees forest' = bareTrees forest := by
  induction fuel generalizing m m' texts with
  | zero => cases hrun
  | succ fuel ih =>
    have htop : topState m'.stack = topState m.stack := h.topState_drop 0
    rw [run] at hrun
    cases hstep : step tables m with
    | failed =>
      rw [hstep] at hrun
      cases hrun
    | done =>
      rw [hstep] at hrun
      cases hrun
      obtain ⟨state, i, hs, hi, haction, rfl, -⟩ := step_done hstep
      refine ⟨m'.grown, m'.comments.reverse, ?_, h.grown⟩
      rw [run, step_held (htop ▸ hs) (h.index?.trans hi), act_accept haction]
    | next m₁ =>
      rw [hstep] at hrun
      obtain ⟨state, hs, ⟨hnothing, hfind⟩ | ⟨i, hi, hact⟩⟩ := step_next hstep
      · have hnothing' := Held.index?_eq_none.mp (h.index?.trans (Held.index?_eq_none.mpr hnothing))
        rcases find_next hfind with ⟨t, after, passed, hnext, rfl⟩ | ⟨passed, hnext, rfl⟩
        · -- The token that is found is the next one of the layouts.
          obtain ⟨more, rfl⟩ : ∃ more, texts = t.text :: more := by
            rcases run_texts hrun with hprefix | hsame
            · rw [took_texts hnothing, htexts, List.prefix_append_right_inj] at hprefix
              obtain ⟨more, hmore⟩ := hprefix
              exact ⟨more, hmore.symm⟩
            · rw [htexts, texts_nothing hnothing] at hsame
              obtain rfl : texts = [] := List.append_right_eq_self.mp hsame
              cases h.rest with
              | last hg hg' =>
                have hlexeme := next_lexeme state.expected m.cursor m.comments
                rw [hnext, lexeme_last hg] at hlexeme
                cases hlexeme
          obtain ⟨m₁', hfind', htwin⟩ := h.find_token hnext
          obtain ⟨forest', comments', hrun', hbare⟩ := ih htwin hrun (by rw [htexts, took_texts hnothing]; simp)
          refine ⟨forest', comments', ?_, hbare⟩
          rw [run, step_nothing (htop ▸ hs) hnothing', hfind']
          exact hrun'
        · -- Behind the end there is no token, so the layouts have none left.
          have hgrown : textsOf forest = m.texts := (run_finish hend rfl hrun).trans (texts_nothing hnothing).symm
          obtain rfl : texts = [] := List.append_right_eq_self.mp (htexts.symm.trans hgrown)
          obtain ⟨m₁', hfind', htwin⟩ := h.find_finish passed
          have htexts₁ : (m.ended passed).texts = m.texts := by
            rw [texts_nothing hnothing, Machine.texts]
            exact List.append_nil _
          obtain ⟨forest', comments', hrun', hbare⟩ := ih htwin hrun (by rw [htexts, htexts₁])
          refine ⟨forest', comments', ?_, hbare⟩
          rw [run, step_nothing (htop ▸ hs) hnothing', hfind']
          exact hrun'
      · obtain ⟨m₁', hact', htwin⟩ := h.act hact
        obtain ⟨forest', comments', hrun', hbare⟩ := ih htwin hrun (by rw [htexts, (act_texts hact).1])
        refine ⟨forest', comments', ?_, hbare⟩
        rw [run, step_held (htop ▸ hs) (h.index?.trans hi), hact']
        exact hrun'

end Machine

theorem tables_ending : tables.Ending := by
  intro s state hs target haction
  exact absurd ((gauge.fits_state gauge_fits hs).1 _ (action_shift haction)).1 (Nat.lt_irrefl _)

/-- The tree of a text in another layout. -/
theorem parseTree_relaid {text text' : List Char} {forest : List Tree} {passed : List Comment}
    (h : parseTree text = .ok (forest, passed)) (hlaid : Relaid (textsOf forest) text text') :
    ∃ forest' passed', parseTree text' = .ok (forest', passed') ∧ bareTrees forest' = bareTrees forest := by
  have htwin : Machine.Twin (textsOf forest) (Machine.start text) (Machine.start text') := ⟨rfl, rfl, hlaid⟩
  have htexts : textsOf forest = (Machine.start text).texts ++ textsOf forest := by
    rw [show (Machine.start text).texts = [] from rfl, List.nil_append]
  rw [parseTree] at h
  obtain ⟨forest', passed', hrun, hbare⟩ := Machine.run_relaid tables_ending htwin h htexts
  exact ⟨forest', passed', parseTree_of_run hrun, hbare⟩

theorem declarations_eq_ok [CharacterNames] {tree : Except SyntaxFault (List Tree × List Comment)} {decls : List Decl}
    {comments : List Comment} (h : declarations tree = .ok (decls, comments)) :
    ∃ forest passed, tree = .ok (forest, passed) := by
  cases tree with
  | error fault => cases h
  | ok parsed => exact ⟨parsed.1, parsed.2, rfl⟩

/-! ## Texts without a first token -/

theorem scan_none {s : List Char} (hnone : ∀ t : Terminal, t.matchLength s = none) (expected : Nat) :
    scan expected s = none := by
  refine List.findSome?_eq_none_iff.mpr fun x _ => ?_
  simp [hnone]

theorem Machine.run_unmatched {tables : Tables} {fuel : Nat} {m : Machine} (hheld : m.held = .nothing)
    (hne : m.cursor.rest ≠ []) (hnone : ∀ t : Terminal, t.matchLength m.cursor.rest = none) :
    ∃ fault, run tables (fuel + 1) m = .error fault := by
  cases hs : tables.states[topState m.stack]? with
  | none =>
    refine ⟨m.fault, ?_⟩
    rw [run, step, hs]
  | some state =>
    have hnext := @Cursor.next_stray _ m.cursor m.comments hne (scan_none hnone state.expected)
    refine ⟨m.cursor.fault, ?_⟩
    rw [run, step_nothing hs hheld, find, hnext]

/-- A text that begins with no token is no schema. -/
theorem parse_unmatched [CharacterNames] {text : String} (hne : text.toList ≠ [])
    (hnone : ∀ t : Terminal, t.matchLength text.toList = none) : ∃ fault, parse text = .error (.misplaced fault) := by
  obtain ⟨fault, hrun⟩ : ∃ fault, parseTree text.toList = .error fault := by
    rw [parseTree, enoughMoves, Nat.mul_succ]
    exact Machine.run_unmatched rfl hne hnone
  exact ⟨fault, by rw [parse_eq, hrun]; rfl⟩

/-! ## Parsing another layout -/

/-- **Layout does not matter to the parser.** Where a text is parsed, a text of the same tokens in another layout is, and
it declares the same up to lines. At each place only the terminals with an action in the state are looked for, and
blanks and comments. -/
theorem parse_relaid [CharacterNames] {text text' : String} {decls : List Decl} {comments : List Comment}
    (h : parse text = .ok (decls, comments)) (hlaid : Relaid (tokenTexts text) text.toList text'.toList) :
    (∃ decls' comments', parse text' = .ok (decls', comments') ∧ decls'.map Decl.bare = decls.map Decl.bare) ∧
      ∀ (state : Grammar.State) (t : Terminal), isTried state.expected t t.index = true →
        t = .blank ∨ t = .comment ∨ state.action t.index ≠ .fail := by
  refine ⟨?_, fun state t ht => ?_⟩
  · rw [parse_eq] at h
    obtain ⟨forest, passed, htree⟩ := declarations_eq_ok h
    rw [tokenTexts_eq, htree] at hlaid
    obtain ⟨forest', passed', htree', hbare⟩ := parseTree_relaid htree hlaid
    rw [htree] at h
    have hdecls := declarations_bare forest passed passed'
    rw [← hbare, declarations_bare forest' passed' passed', h] at hdecls
    rw [parse_eq, htree']
    cases hforest' : declarations (.ok (forest', passed')) with
    | error fault =>
      rw [hforest'] at hdecls
      cases hdecls
    | ok result =>
      rw [hforest'] at hdecls
      exact ⟨result.1, result.2, rfl, Except.ok.inj hdecls⟩
  · rw [isTried, Bool.or_eq_true, Bool.or_eq_true, beq_iff_eq, beq_iff_eq, Bool.and_eq_true, or_assoc] at ht
    exact ht.imp_right fun h => h.imp_right fun h => expected_iff.mp h.1

/-- One field of one message, written tight. -/
def tight : String := "message A\x7bint32 b=1;\x7d"

/-- Messages on two pages, two of them with a comment behind them. -/
def paged : String := "message A \x7b\x7d // of A\n\x0c\nmessage B \x7b\x7d // of B\nmessage C \x7b\x7d"

/-- What the texts are parsed to. One evaluation finds it for both, since building the automaton takes most of the time. -/
theorem texts_checked : ((parse tight).toOption.isSome &&
    tokenTexts tight == ["message", "A", "\x7b", "int32", "b", "=", "1", ";", "\x7d"] &&
    (parse paged).toOption.map (·.2) == some [⟨"// of A", 1, 14, 1⟩, ⟨"// of B", 3, 14, 3⟩]) = true := by
  simp only [tight, paged, parse_eq, tokenTexts_eq]
  -- The characters of the texts are written out before the evaluation, which would take long to find them.
  repeat rw [String.toList_ofList]
  decide +kernel

/-- One field of one message, written tight and written with blanks and comments. -/
theorem parse_relaid_field : ∃ decls comments decls' comments',
    parse "message A\x7bint32 b=1;\x7d" = .ok (decls, comments) ∧
      Relaid (tokenTexts "message A\x7bint32 b=1;\x7d") "message A\x7bint32 b=1;\x7d".toList
        "message/* */A \x7b\nint32\tb = 1 ; \x7d// one".toList ∧
      parse "message/* */A \x7b\nint32\tb = 1 ; \x7d// one" = .ok (decls', comments') ∧
      decls'.map Decl.bare = decls.map Decl.bare := by
  have hchecked := texts_checked
  unfold tight at hchecked
  simp only [Bool.and_eq_true, beq_iff_eq] at hchecked
  replace hchecked := hchecked.1
  obtain ⟨⟨decls, comments⟩, hparse⟩ := exists_ok hchecked.1
  have hblank : ∀ {c : Char}, Terminal.isSpace c = true → Gap [c] := fun hc => .blank hc .nil
  have hlaid : Relaid (tokenTexts "message A\x7bint32 b=1;\x7d") "message A\x7bint32 b=1;\x7d".toList
      "message/* */A \x7b\nint32\tb = 1 ; \x7d// one".toList := by
    rw [hchecked.2]
    exact .token .nil .nil id <|
      .token (hblank (c := ' ') rfl) (.block (by decide : ¬ ['*', '/'] <:+: [' ']) .nil) nofun <|
      .token .nil (hblank (c := ' ') rfl) nofun <|
      .token .nil (hblank (c := '\n') rfl) nofun <|
      .token (hblank (c := ' ') rfl) (hblank (c := '\t') rfl) nofun <|
      .token .nil (hblank (c := ' ') rfl) nofun <|
      .token .nil (hblank (c := ' ') rfl) nofun <|
      .token .nil (hblank (c := ' ') rfl) nofun <|
      .token .nil (hblank (c := ' ') rfl) nofun <|
      .last (.closed .nil) (.line .nil (by decide : '\n' ∉ " one".toList))
  obtain ⟨⟨decls', comments', hparse', hbare⟩, -⟩ := parse_relaid hparse hlaid
  exact ⟨decls, comments, decls', comments', hparse, hlaid, hparse', hbare⟩

end ProtoBind.Source
