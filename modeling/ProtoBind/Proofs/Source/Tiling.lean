/-
The pieces of a text.

The lexer cuts a text into tokens, blanks and comments: up to the next token
(`Cursor.pieces`), and so during a whole parse (`Machine.pieces`). Each piece
begins where the one before it ends, and its line and its column are counted
from what is before it (`PlacedAll`). One search for a token produces such
pieces (`Cursor.next_pieces`, `Cursor.pieces_placed`), and hence a run does
(`Machine.run_tiled`): its pieces are all of the text, and the tokens of its
trees and its comments are among them in order.
-/
import ProtoBind.Proofs.Source.Forms
import ProtoBind.Proofs.Source.Places

namespace ProtoBind.Grammar

variable {s : Nat} {state : State}

theorem mem_of_ofList {β : Type} {entries : List (Nat × β)} {k : Nat} {v : β}
    (h : (Std.TreeMap.ofList entries)[k]? = some v) : (k, v) ∈ entries := by
  rw [Std.TreeMap.ofList_eq_insertMany_empty, Std.TreeMap.getElem?_insertMany_list, Std.TreeMap.getElem?_emptyc,
    Option.or_none, List.findSomeRev?_eq_findSome?_reverse] at h
  obtain ⟨⟨k', v'⟩, hmem, hfound⟩ := List.exists_of_findSome?_eq_some h
  obtain ⟨hk, hv⟩ := Option.ite_none_right_eq_some.mp hfound
  cases hv
  obtain rfl : k' = k := Std.LawfulEqCmp.eq_of_compare hk
  exact List.mem_reverse.mp hmem

/-- A state accepts on the end of the text or not at all. -/
theorem automaton_accepting (g : Grammar) (h : g.automaton[s]? = some state) :
    state.accepting = bit g.terminals ∨ state.accepting = 0 := by
  rw [automaton] at h
  obtain ⟨⟨row, s'⟩, -, hstate⟩ := List.mem_map.mp (mem_of_ofList h)
  cases hstate
  dsimp only
  split
  · exact .inl rfl
  · exact .inr rfl

end ProtoBind.Grammar

namespace ProtoBind.Source

/-! ## Pieces -/

/-- What the lexer cuts off a text. -/
inductive Piece
  | token (t : Token)
  | blank (text : String)
  | comment (c : Comment)
  deriving DecidableEq, Repr, Inhabited

namespace Piece

def text : Piece → String
  | token t => t.text
  | blank text => text
  | comment c => c.text

def token? : Piece → Option Token
  | token t => some t
  | _ => none

def comment? : Piece → Option Comment
  | comment c => some c
  | _ => none

/-- A piece is placed behind what is before it: its line is counted in line feeds, its column from the last of them, and
the last line of a comment in the line feeds of its text. -/
def Placed (pre : List Char) : Piece → Prop
  | token t => t.line = 1 + pre.count '\n' ∧ t.column = 1 + (ownLine pre).length
  | comment c => c.line = 1 + pre.count '\n' ∧ c.column = 1 + (ownLine pre).length ∧
      c.endLine = c.line + c.text.toList.count '\n'
  | blank text => ∀ c ∈ text.toList, Terminal.isSpace c = true

end Piece

/-- The text that pieces make up. -/
def textOfPieces (ps : List Piece) : List Char := ps.flatMap (·.text.toList)

/-- Each piece is placed behind `pre` and the pieces before it. -/
def PlacedAll (pre : List Char) (ps : List Piece) : Prop :=
  ∀ before p after, ps = before ++ p :: after → p.Placed (pre ++ textOfPieces before)

variable {pre : List Char} {ps qs : List Piece} {p : Piece}

theorem textOfPieces_cons (p : Piece) (ps : List Piece) : textOfPieces (p :: ps) = p.text.toList ++ textOfPieces ps :=
  List.flatMap_cons

theorem textOfPieces_append (ps qs : List Piece) : textOfPieces (ps ++ qs) = textOfPieces ps ++ textOfPieces qs :=
  List.flatMap_append

theorem placedAll_nil (pre : List Char) : PlacedAll pre [] := fun before p after h => by simp at h

theorem placedAll_cons : PlacedAll pre (p :: ps) ↔ p.Placed pre ∧ PlacedAll (pre ++ p.text.toList) ps := by
  constructor
  · refine fun h => ⟨List.append_nil pre ▸ h [] p ps rfl, fun before q after hps => ?_⟩
    have hq := h (p :: before) q after (by rw [hps, List.cons_append])
    rwa [textOfPieces_cons, ← List.append_assoc] at hq
  · rintro ⟨hp, hps⟩ before q after h
    cases before with
    | nil =>
      obtain ⟨rfl, -⟩ := List.cons.inj h
      rwa [textOfPieces, List.flatMap_nil, List.append_nil]
    | cons b before =>
      obtain ⟨rfl, hrest⟩ := List.cons.inj h
      rw [textOfPieces_cons, ← List.append_assoc]
      exact hps before q after hrest

theorem placedAll_append : PlacedAll pre (ps ++ qs) ↔ PlacedAll pre ps ∧ PlacedAll (pre ++ textOfPieces ps) qs := by
  induction ps generalizing pre with
  | nil => simp [placedAll_nil, textOfPieces]
  | cons p ps ih =>
    rw [List.cons_append, placedAll_cons, placedAll_cons, ih, and_assoc, textOfPieces_cons, List.append_assoc]

/-! ## The pieces up to a token -/

/-- What is left of the text behind what stands at a place. -/
def Lexed.left : Lexed → List Char
  | .token _ after => after.rest
  | .finish => []
  | .stray k => k.rest

def Lexed.token? : Lexed → Option Token
  | .token t _ => some t
  | _ => none

namespace Cursor

variable {k : Cursor} {expected n : Nat} {passed : List Comment} {t : Terminal}

/-- The pieces up to the next token, with that token. -/
def pieces (expected : Nat) (k : Cursor) : List Piece :=
  match scan expected k.rest with
  | none => []
  | some (t, n) =>
    if _h : 0 < n ∧ 0 < k.rest.length then
      let text := String.ofList (k.rest.take n)
      if t = .blank then .blank text :: pieces expected (k.advance n)
      else if t = .comment then
        .comment ⟨text, k.line, k.column, (k.advance n).line⟩ :: pieces expected (k.advance n)
      else [.token ⟨t, text, k.line, k.column⟩]
    else []
termination_by k.rest.length
decreasing_by all_goals (simp [Cursor.advance, List.length_drop]; omega)

theorem pieces_stray (h : scan expected k.rest = none) : k.pieces expected = [] := by
  rw [pieces, h]

theorem scan_nil (expected : Nat) : scan expected [] = none := by
  cases h : scan expected [] with
  | none => rfl
  | some found => exact absurd (scan_pos h).2 (Nat.lt_irrefl 0)

theorem pieces_scan (h : scan expected k.rest = some (t, n)) : k.pieces expected =
    if t = .blank then .blank (String.ofList (k.rest.take n)) :: (k.advance n).pieces expected
    else if t = .comment then
      .comment ⟨String.ofList (k.rest.take n), k.line, k.column, (k.advance n).line⟩ :: (k.advance n).pieces expected
    else [.token ⟨t, String.ofList (k.rest.take n), k.line, k.column⟩] := by
  rw [pieces, h]
  dsimp only
  rw [dif_pos (scan_pos h)]

theorem advance_less (h : scan expected k.rest = some (t, n)) : (k.advance n).rest.length < k.rest.length := by
  have hpos := scan_pos h
  rw [advance, List.length_drop]
  omega

/-- **What the lexer finds is in the pieces**: the comments that it passes, the token behind them, and all of the text up
to what is left. -/
theorem next_pieces (expected : Nat) (k : Cursor) (passed : List Comment) :
    (k.next expected passed).2 = ((k.pieces expected).filterMap Piece.comment?).reverse ++ passed ∧
    (k.next expected passed).1.token?.toList = (k.pieces expected).filterMap Piece.token? ∧
    textOfPieces (k.pieces expected) ++ (k.next expected passed).1.left = k.rest := by
  by_cases hnil : k.rest = []
  · rw [next_nil hnil, pieces_stray (hnil ▸ scan_nil expected), hnil]
    exact ⟨rfl, rfl, rfl⟩
  cases hscan : scan expected k.rest with
  | none =>
    rw [next_stray hnil hscan, pieces_stray hscan]
    exact ⟨rfl, rfl, rfl⟩
  | some found =>
    obtain ⟨t, n⟩ := found
    have hless := advance_less hscan
    have htext (s : List Char) : (String.ofList (k.rest.take n)).toList ++ s = k.rest.take n ++ s := by
      rw [String.toList_ofList]
    have hcut : k.rest.take n ++ (k.advance n).rest = k.rest := List.take_append_drop n k.rest
    rw [next_scan hscan, pieces_scan hscan]
    split
    · obtain ⟨hcomments, htokens, hall⟩ := next_pieces expected (k.advance n) passed
      refine ⟨hcomments, htokens, ?_⟩
      rw [textOfPieces_cons, List.append_assoc, hall]
      exact (htext _).trans hcut
    split
    · obtain ⟨hcomments, htokens, hall⟩ := next_pieces expected (k.advance n)
        (⟨String.ofList (k.rest.take n), k.line, k.column, (k.advance n).line⟩ :: passed)
      refine ⟨by rw [hcomments]; simp [Piece.comment?], htokens, ?_⟩
      rw [textOfPieces_cons, List.append_assoc, hall]
      exact (htext _).trans hcut
    · refine ⟨rfl, rfl, ?_⟩
      rw [textOfPieces_cons]
      exact (congrArg (· ++ _) (List.append_nil _)).trans ((htext _).trans hcut)
termination_by k.rest.length
decreasing_by all_goals exact hless

/-- What is scanned as blanks is blank. -/
theorem blank_scanned (h : scan expected k.rest = some (.blank, n)) : ∀ c ∈ k.rest.take n, Terminal.isSpace c = true := by
  have hmatch : Terminal.positive (Terminal.spanLength Terminal.isSpace k.rest) = some n := matchLength_of_scan h rfl
  obtain ⟨-, hn⟩ := Option.ite_none_left_eq_some.mp hmatch
  cases hn
  exact fun c hc => Terminal.mem_take_spanLength hc

/-- **The lexer keeps its place**: behind text that has been counted the pieces are placed, and so is what follows a
token. -/
theorem pieces_placed {pre : List Char} (expected : Nat) (k : Cursor) (passed : List Comment)
    (hk : place 1 1 pre = (k.line, k.column)) :
    PlacedAll pre (k.pieces expected) ∧ ∀ t after, (k.next expected passed).1 = .token t after →
      place 1 1 (pre ++ textOfPieces (k.pieces expected)) = (after.line, after.column) := by
  by_cases hnil : k.rest = []
  · rw [next_nil hnil, pieces_stray (hnil ▸ scan_nil expected)]
    exact ⟨placedAll_nil pre, nofun⟩
  cases hscan : scan expected k.rest with
  | none =>
    rw [next_stray hnil hscan, pieces_stray hscan]
    exact ⟨placedAll_nil pre, nofun⟩
  | some found =>
    obtain ⟨t, n⟩ := found
    have hless := advance_less hscan
    obtain ⟨hline, hcolumn⟩ := Prod.mk.inj ((place_eq pre 1).symm.trans hk)
    have hblank : t = .blank → ∀ c ∈ k.rest.take n, Terminal.isSpace c = true := fun ht => blank_scanned (ht ▸ hscan)
    have hend : (k.advance n).line = k.line + (k.rest.take n).count '\n' := place_line _ _ _
    have hafter : place 1 1 (pre ++ k.rest.take n) = ((k.advance n).line, (k.advance n).column) := by
      rw [place_append, hk]
      rfl
    rw [next_scan hscan, pieces_scan hscan]
    rw [← String.toList_ofList (l := k.rest.take n)] at hblank hend hafter
    generalize String.ofList (k.rest.take n) = text at hblank hend hafter ⊢
    split
    next ht =>
      obtain ⟨hplaced, hnext⟩ := pieces_placed expected (k.advance n) passed hafter
      rw [placedAll_cons, textOfPieces_cons, ← List.append_assoc]
      exact ⟨⟨hblank ht, hplaced⟩, hnext⟩
    split
    · obtain ⟨hplaced, hnext⟩ := pieces_placed expected (k.advance n)
        (⟨text, k.line, k.column, (k.advance n).line⟩ :: passed) hafter
      rw [placedAll_cons, textOfPieces_cons, ← List.append_assoc]
      exact ⟨⟨⟨hline.symm, hcolumn.symm, hend⟩, hplaced⟩, hnext⟩
    · refine ⟨placedAll_cons.mpr ⟨⟨hline.symm, hcolumn.symm⟩, placedAll_nil _⟩, fun t' after he => ?_⟩
      cases he
      rw [textOfPieces_cons, textOfPieces, List.flatMap_nil, List.append_nil]
      exact hafter
termination_by k.rest.length
decreasing_by all_goals exact hless

end Cursor

/-! ## The pieces of a parse -/

theorem Terminal.index_lt (t : Terminal) : t.index < Terminal.count := by cases t <;> decide

/-- A text is accepted at its end only. -/
def Tables.AcceptsAtEnd (tables : Tables) : Prop :=
  ∀ {s : Nat} {state : Grammar.State}, tables.states[s]? = some state → ∀ i, state.action i = .accept → i = Terminal.count

namespace Machine

variable {tables : Tables} {state : Grammar.State} {m m' : Machine} {forest : List Tree} {comments : List Comment}
  {fuel i : Nat}

/-- The pieces that one move finds: those up to the next token, where there is none yet. -/
def found (tables : Tables) (m : Machine) : List Piece :=
  match m.held, tables.states[topState m.stack]? with
  | .nothing, some state => m.cursor.pieces state.expected
  | _, _ => []

/-- The pieces that a run finds. -/
def pieces (tables : Tables) : (fuel : Nat) → Machine → List Piece
  | 0, _ => []
  | fuel + 1, m =>
    match step tables m with
    | .next m' => m.found tables ++ pieces tables fuel m'
    | _ => []

theorem found_nothing (hs : tables.states[topState m.stack]? = some state) (h : m.held = .nothing) :
    m.found tables = m.cursor.pieces state.expected := by
  rw [found, hs, h]

theorem found_held (h : m.held.index? = some i) : m.found tables = [] := by
  unfold found
  split
  next hheld _ =>
    rw [hheld] at h
    cases h
  next => rfl

/-- What is left of the text: nothing once its end was found. -/
def left (m : Machine) : List Char :=
  match m.held with
  | .finish => []
  | _ => m.cursor.rest

/-- Some text was counted up to the cursor; at the end of the text nothing more is counted. -/
def Counted (pre : List Char) (m : Machine) : Prop :=
  m.held = .finish ∨ place 1 1 pre = (m.cursor.line, m.cursor.column)

/-- What one machine has before another: some pieces of the text, behind text that was counted, with the tokens and
comments of which the second goes on. -/
structure Cuts (m : Machine) (pre : List Char) (ps : List Piece) (m' : Machine) : Prop where
  text : textOfPieces ps ++ m'.left = m.left
  placed : PlacedAll pre ps
  counted : Counted (pre ++ textOfPieces ps) m'
  tokens : m'.tokens = m.tokens ++ ps.filterMap Piece.token?
  comments : m'.comments.reverse = m.comments.reverse ++ ps.filterMap Piece.comment?

theorem find_cuts {pre : List Char} (hnothing : m.held = .nothing) (hm : Counted pre m) (h : find state m = .next m') :
    m.Cuts pre (m.cursor.pieces state.expected) m' := by
  obtain ⟨hcomments, htokens, htext⟩ := Cursor.next_pieces state.expected m.cursor m.comments
  obtain ⟨hplaced, hafter⟩ := Cursor.pieces_placed state.expected m.cursor m.comments
    (hm.resolve_left (by rw [hnothing]; nofun))
  have hleft : m.left = m.cursor.rest := by rw [left, hnothing]
  have hgrown : m.tokens = tokensAll m.grown := by
    rw [tokens, hnothing]
    exact List.append_nil _
  rcases find_next h with ⟨t, after, passed, hnext, rfl⟩ | ⟨passed, hnext, rfl⟩ <;> rw [hnext] at hcomments htokens htext
  · refine ⟨hleft ▸ htext, hplaced, .inr (hafter t after (by rw [hnext])), ?_, ?_⟩
    · rw [hgrown, ← htokens]
      rfl
    · show passed.reverse = _
      rw [show passed = _ from hcomments, List.reverse_append, List.reverse_reverse]
  · refine ⟨hleft ▸ htext, hplaced, .inl rfl, ?_, ?_⟩
    · rw [hgrown, ← htokens]
      rfl
    · show passed.reverse = _
      rw [show passed = _ from hcomments, List.reverse_append, List.reverse_reverse]

/-- A shift and a reduction find nothing. -/
theorem act_cuts {pre : List Char} (hend : tables.Ending) (hs : tables.states[topState m.stack]? = some state)
    (hi : m.held.index? = some i) (hm : Counted pre m) (h : act tables state m i m.held.leaves = .next m') :
    m.Cuts pre [] m' := by
  have htokens : m'.tokens = m.tokens ++ [].filterMap Piece.token? := (act_tokens h).1.trans (List.append_nil _).symm
  have hcomments : m.comments.reverse = m.comments.reverse ++ [].filterMap Piece.comment? := (List.append_nil _).symm
  have hpre : pre = pre ++ textOfPieces [] := (List.append_nil _).symm
  rcases act_cases tables state m i with ⟨target, haction, hact⟩ | ⟨p, production, goto, -, -, -, hact⟩ | ⟨-, hact⟩ | hact
  · cases h.symm.trans hact
    cases hheld : m.held with
    | nothing =>
      rw [hheld] at hi
      cases hi
    | token t =>
      have hleft : m.left = m.cursor.rest := by rw [left, hheld]
      exact ⟨hleft.symm, placedAll_nil pre, hpre ▸ .inr (hm.resolve_left (by rw [hheld]; nofun)), htokens, hcomments⟩
    | finish =>
      -- The end is never shifted.
      rw [hheld] at hi
      cases hi
      exact absurd haction (hend hs target)
  · cases h.symm.trans hact
    exact ⟨rfl, placedAll_nil pre, hpre ▸ hm, htokens, hcomments⟩
  · cases h.symm.trans hact
  · cases h.symm.trans hact

/-- **Each move goes on behind the pieces that it finds.** -/
theorem step_cuts {pre : List Char} (hend : tables.Ending) (hm : Counted pre m) (h : step tables m = .next m') :
    m.Cuts pre (m.found tables) m' := by
  obtain ⟨state, hs, ⟨hnothing, hfind⟩ | ⟨i, hi, hact⟩⟩ := step_next h
  · rw [found_nothing hs hnothing]
    exact find_cuts hnothing hm hfind
  · rw [found_held hi]
    exact act_cuts hend hs hi hm hact

/-- What a run does from a machine on, behind some text: the pieces are all that is left, they are placed, and with those
of the machine the tokens are those of the trees, and the comments the comments. -/
structure Tiled (m : Machine) (pre : List Char) (ps : List Piece) (forest : List Tree) (comments : List Comment) :
    Prop where
  text : textOfPieces ps = m.left
  placed : PlacedAll pre ps
  tokens : tokensAll forest = m.tokens ++ ps.filterMap Piece.token?
  comments : comments = m.comments.reverse ++ ps.filterMap Piece.comment?

theorem Cuts.tiled {pre : List Char} (h : m.Cuts pre ps m')
    (hrest : m'.Tiled (pre ++ textOfPieces ps) qs forest comments) : m.Tiled pre (ps ++ qs) forest comments where
  text := by rw [textOfPieces_append, hrest.text, h.text]
  placed := placedAll_append.mpr ⟨h.placed, hrest.placed⟩
  tokens := by rw [hrest.tokens, h.tokens, List.filterMap_append, List.append_assoc]
  comments := by rw [hrest.comments, h.comments, List.filterMap_append, List.append_assoc]

/-- What is held where a text is accepted is its end. -/
theorem step_accepted (haccepts : tables.AcceptsAtEnd) (h : step tables m = .done forest comments) :
    m.held = .finish ∧ forest = m.grown ∧ comments = m.comments.reverse := by
  obtain ⟨state, i, hs, hi, haction, hforest, hcomments⟩ := step_done h
  obtain rfl := haccepts hs i haction
  refine ⟨?_, hforest, hcomments⟩
  cases hheld : m.held with
  | nothing =>
    rw [hheld] at hi
    cases hi
  | token t =>
    rw [hheld] at hi
    exact absurd (Option.some.inj hi) (Nat.ne_of_lt t.terminal.index_lt)
  | finish => rfl

/-- **A run cuts the text into its pieces.** -/
theorem run_tiled (hend : tables.Ending) (haccepts : tables.AcceptsAtEnd) {pre : List Char} (hm : Counted pre m)
    (h : run tables fuel m = .ok (forest, comments)) : m.Tiled pre (pieces tables fuel m) forest comments := by
  induction fuel generalizing m pre with
  | zero => cases h
  | succ fuel ih =>
    rw [run] at h
    rw [pieces]
    cases hstep : step tables m with
    | failed =>
      rw [hstep] at h
      cases h
    | done =>
      rw [hstep] at h
      cases h
      obtain ⟨hheld, rfl, rfl⟩ := step_accepted haccepts hstep
      refine ⟨by rw [left, hheld]; rfl, placedAll_nil pre, ?_, (List.append_nil _).symm⟩
      rw [Machine.tokens, hheld]
      simp [Held.leaves, tokensAll]
    | next m₁ =>
      rw [hstep] at h
      have hcuts := step_cuts hend hm hstep
      exact hcuts.tiled (ih hcuts.counted h)

end Machine

theorem tables_acceptsAtEnd : tables.AcceptsAtEnd := by
  intro s state hs i haction
  have hbit : Grammar.hasBit state.accepting i = true := by
    rw [action_eq] at haction
    split at haction
    · cases haction
    · split at haction
      · cases haction
      · split at haction
        next hbit => exact hbit
        next => cases haction
  rcases Grammar.automaton_accepting grammar hs with hend | hnone
  · rw [hend, hasBit_bit, tables_completeFor.terminals] at hbit
    exact hbit.symm
  · rw [hnone, Grammar.hasBit, Nat.zero_testBit] at hbit
    cases hbit

/-- The pieces that the lexer cuts off a text in the course of a parse. -/
def lexed (text : List Char) : List Piece := Machine.pieces tables (enoughMoves text) (Machine.start text)

/-- **The pieces of a parsed text are the text**, each in its place; the tokens are those of the trees, and the comments
are the comments of the parse. -/
theorem parseTree_tiled {text : List Char} {forest : List Tree} {comments : List Comment}
    (h : parseTree text = .ok (forest, comments)) :
    textOfPieces (lexed text) = text ∧ PlacedAll [] (lexed text) ∧
      tokensAll forest = (lexed text).filterMap Piece.token? ∧ comments = (lexed text).filterMap Piece.comment? := by
  rw [parseTree] at h
  have hcounted : Machine.Counted [] (Machine.start text) := .inr rfl
  have htiled := Machine.run_tiled tables_ending tables_acceptsAtEnd hcounted h
  rw [lexed]
  exact ⟨htiled.text, htiled.placed, htiled.tokens.trans (List.nil_append _), htiled.comments.trans (List.nil_append _)⟩

/-- **The comments of a parse stand where they say.** -/
theorem comments_behind [CharacterNames] {text : String} {decls : List Decl} {comments : List Comment}
    (h : parse text = .ok (decls, comments)) : ∀ c ∈ comments, ∃ pre, c.Behind pre text.toList := by
  rw [parse_eq] at h
  obtain ⟨forest, passed, htree⟩ := declarations_eq_ok h
  obtain rfl : passed = comments := by
    rw [htree, declarations] at h
    split at h <;> cases h
    rfl
  obtain ⟨htext, hplaced, -, hcomments⟩ := parseTree_tiled htree
  intro c hc
  obtain ⟨p, hp, hc⟩ := List.mem_filterMap.mp (hcomments ▸ hc)
  obtain rfl : p = .comment c := by cases p <;> cases hc; rfl
  obtain ⟨before, after, hpieces⟩ := List.append_of_mem hp
  obtain ⟨hline, hcolumn, hend⟩ : (Piece.comment c).Placed (textOfPieces before) := hplaced before _ after hpieces
  refine ⟨textOfPieces before, ⟨textOfPieces after, ?_⟩, ?_, ?_⟩
  · rw [← htext, hpieces, textOfPieces_append, textOfPieces_cons]
    rfl
  · rw [place_eq, ← hline, ← hcolumn]
  · rw [place_line, hend]

end ProtoBind.Source
