/-
What one move of the machine does.

Without a held token a move looks for one; otherwise it acts on what is held
(`step_held`): it shifts, reduces, accepts or fails (`act_cases`), and both
moves that go on keep the tokens found so far (`act_tokens`). The lexer is given
exactly the terminals with an action (`expected_iff`).
-/
import ProtoBind.Proofs.Entries
import ProtoBind.Proofs.Source.Bare
import ProtoBind.Proofs.Source.Names

namespace ProtoBind.Source

/-! ## Actions -/

section Actions

variable {state : Grammar.State} {t p target : Nat}

theorem action_eq (state : Grammar.State) (t : Nat) : state.action t =
    match state.shifts.lookup t with
    | some target => .shift target
    | none => match state.reductions.find? fun r => Grammar.hasBit r.2 t with
      | some r => .reduce r.1
      | none => if Grammar.hasBit state.accepting t then .accept else .fail := by
  unfold Grammar.State.action
  cases state.shifts.lookup t with
  | some target => rfl
  | none => cases state.reductions.find? fun r => Grammar.hasBit r.2 t <;> rfl

theorem action_shift (h : state.action t = .shift target) : (t, target) ∈ state.shifts := by
  rw [action_eq] at h
  split at h
  next hlookup => exact Grammar.Action.shift.inj h ▸ Entries.mem_of_lookup hlookup
  next =>
    split at h
    · cases h
    · split at h <;> cases h

/-- A reduction that is done on some terminal. -/
theorem action_reduce (h : state.action t = .reduce p) : ∃ mask, (p, mask) ∈ state.reductions := by
  rw [action_eq] at h
  split at h
  · cases h
  · split at h
    next r hfind => exact ⟨r.2, Grammar.Action.reduce.inj h ▸ List.mem_of_find?_eq_some hfind⟩
    next => split at h <;> cases h

theorem hasBit_union {a b : Nat} : Grammar.hasBit (Grammar.union a b) t = true ↔
    Grammar.hasBit a t = true ∨ Grammar.hasBit b t = true := by
  have hor : Grammar.hasBit (Grammar.union a b) t = (Grammar.hasBit a t || Grammar.hasBit b t) := Nat.testBit_or a b t
  rw [hor, Bool.or_eq_true]

theorem hasBit_foldl {α : Type} {f : α → Nat} : ∀ {xs : List α} {mask : Nat},
    Grammar.hasBit (xs.foldl (fun m x => Grammar.union m (f x)) mask) t = true ↔
      Grammar.hasBit mask t = true ∨ ∃ x ∈ xs, Grammar.hasBit (f x) t = true
  | [], mask => by simp
  | x :: xs, mask => by
    rw [List.foldl_cons, hasBit_foldl, hasBit_union, or_assoc, List.exists_mem_cons_iff]

theorem hasBit_bit {n : Nat} : Grammar.hasBit (Grammar.bit n) t = true ↔ n = t := by
  rw [Grammar.hasBit, Grammar.bit, Nat.one_shiftLeft, Nat.testBit_two_pow, decide_eq_true_eq]

/-- **The terminals that are looked for in a state are those with an action there.** -/
theorem expected_iff : Grammar.hasBit state.expected t = true ↔ state.action t ≠ .fail := by
  rw [Grammar.State.expected, hasBit_foldl, hasBit_foldl, action_eq]
  cases hshift : state.shifts.lookup t with
  | some target =>
    exact iff_of_true (.inr ⟨_, Entries.mem_of_lookup hshift, hasBit_bit.mpr rfl⟩) nofun
  | none =>
    have hnone : ¬ ∃ r ∈ state.shifts, Grammar.hasBit (Grammar.bit r.1) t = true := by
      rintro ⟨r, hr, hbit⟩
      obtain rfl := hasBit_bit.mp hbit
      exact List.lookup_eq_none_iff.mp hshift r hr |> fun h => absurd h (by simp)
    rw [or_iff_left hnone]
    cases hreduce : state.reductions.find? fun r => Grammar.hasBit r.2 t with
    | some r =>
      have hbit : Grammar.hasBit r.2 t = true := List.find?_some (p := fun r : Nat × Nat => Grammar.hasBit r.2 t) hreduce
      exact iff_of_true (.inr ⟨r, List.mem_of_find?_eq_some hreduce, hbit⟩) nofun
    | none =>
      have hnone : ¬ ∃ r ∈ state.reductions, Grammar.hasBit r.2 t = true := fun ⟨r, hr, hbit⟩ =>
        List.find?_eq_none.mp hreduce r hr hbit
      rw [or_iff_left hnone]
      dsimp only
      split
      next h => exact iff_of_true h nofun
      next h => exact iff_of_false h fun hfail => hfail rfl

end Actions

/-! ## Held tokens -/

namespace Held

/-- The number of the terminal that is held, that of the end included. -/
def index? : Held → Option Nat
  | .nothing => none
  | .token t => some t.terminal.index
  | .finish => some Terminal.count

theorem index?_eq_none {held : Held} : held.index? = none ↔ held = .nothing := by
  cases held <;> simp [index?]

/-- The trees that a shift of what is held puts on the stack. -/
def leaves : Held → List Tree
  | .token t => [.leaf t]
  | _ => []

def bare : Held → Held
  | .token t => .token t.bare
  | held => held

end Held

def Frame.bare (f : Frame) : Frame := ⟨f.state, bareTrees f.forest⟩

/-! ## Texts of tokens -/

/-- The texts of the tokens of trees. -/
def textsOf (forest : List Tree) : List String := (tokensAll forest).map (·.text)

/-- The texts of the tokens of what was parsed. -/
def parsedTexts : Except SyntaxFault (List Tree × List Comment) → List String
  | .ok (forest, _) => textsOf forest
  | .error _ => []

/-- The texts of the tokens of a text. -/
def tokenTexts (text : String) : List String := parsedTexts (parseTree text.toList)

theorem parse_eq [CharacterNames] (text : String) : parse text = declarations (parseTree text.toList) := by
  delta parse
  rfl

theorem tokenTexts_eq (text : String) : tokenTexts text = parsedTexts (parseTree text.toList) := by
  delta tokenTexts
  rfl

theorem textsOf_append (ts us : List Tree) : textsOf (ts ++ us) = textsOf ts ++ textsOf us := by
  rw [textsOf, tokensAll_append, List.map_append]
  rfl

theorem tokensAll_reduced {tables : Tables} (lhs : Nat) (forest : List Tree) :
    tokensAll (Machine.reduced tables lhs forest) = tokensAll forest := by
  unfold Machine.reduced
  split
  · simp [tokensAll, Tree.tokens]
  · rfl

namespace Machine

variable {tables : Tables} {state : Grammar.State} {m m' : Machine} {forest : List Tree} {comments : List Comment}
  {i : Nat}

/-! ## Steps -/

/-- The machine with what it holds on its stack, in a state. -/
def shift (m : Machine) (target : Nat) : Machine :=
  { m with stack := ⟨target, m.held.leaves⟩ :: m.stack, held := .nothing }

/-- The machine with the parts of a production taken from its stack and put back as one, in a state. -/
def reduce (tables : Tables) (m : Machine) (production : Grammar.Production) (target : Nat) : Machine :=
  { m with stack := ⟨target, reduced tables production.lhs
      ((m.stack.take production.rhs.length).reverse.flatMap Frame.forest)⟩ :: m.stack.drop production.rhs.length }

/-- The trees on the stack in the order of the text. -/
def grown (m : Machine) : List Tree := m.stack.reverse.flatMap Frame.forest

theorem step_nothing (hs : tables.states[topState m.stack]? = some state) (h : m.held = .nothing) :
    step tables m = find state m := by
  rw [step, hs, h]

theorem step_held (hs : tables.states[topState m.stack]? = some state) (h : m.held.index? = some i) :
    step tables m = act tables state m i m.held.leaves := by
  rw [step, hs]
  dsimp only
  cases hheld : m.held with
  | nothing =>
    rw [hheld] at h
    cases h
  | token t | finish =>
    rw [hheld] at h
    cases h
    rfl

/-- The machine with a token found, before what follows the token. -/
def took (m : Machine) (t : Token) (after : Cursor) (comments : List Comment) : Machine :=
  { m with cursor := after, held := .token t, last := some t, comments := comments }

/-- The machine at the end of its text. -/
def ended (m : Machine) (comments : List Comment) : Machine := { m with held := .finish, comments := comments }

theorem find_token {t : Token} {after : Cursor} (h : m.cursor.next state.expected m.comments = (.token t after, comments)) :
    find state m = .next (m.took t after comments) := by
  rw [find, h]
  rfl

theorem find_finish (h : m.cursor.next state.expected m.comments = (.finish, comments)) :
    find state m = .next (m.ended comments) := by
  rw [find, h]
  rfl

/-- All that can be found. -/
theorem find_next (h : find state m = .next m') :
    (∃ t after comments, m.cursor.next state.expected m.comments = (.token t after, comments) ∧
      m' = m.took t after comments) ∨
    ∃ comments, m.cursor.next state.expected m.comments = (.finish, comments) ∧ m' = m.ended comments := by
  rcases hnext : m.cursor.next state.expected m.comments with ⟨_ | _ | _, comments⟩
  · rw [find_token hnext] at h
    cases h
    exact .inl ⟨_, _, _, rfl, rfl⟩
  · rw [find_finish hnext] at h
    cases h
    exact .inr ⟨_, rfl, rfl⟩
  · rw [find, hnext] at h
    cases h

theorem act_shift {target : Nat} (h : state.action i = .shift target) :
    act tables state m i m.held.leaves = .next (m.shift target) := by
  rw [act, h]
  rfl

/-- The goto behind a production that is taken from the stack. -/
def gotoBehind (tables : Tables) (m : Machine) (production : Grammar.Production) : Option Grammar.Goto :=
  (tables.states[topState (m.stack.drop production.rhs.length)]?).bind fun s => s.gotos.lookup production.lhs

theorem act_reduce {p : Nat} {production : Grammar.Production} {goto : Grammar.Goto} (h : state.action i = .reduce p)
    (hp : tables.productions[p]? = some production) (hgoto : m.gotoBehind tables production = some goto) :
    act tables state m i m.held.leaves = .next (m.reduce tables production goto.target) := by
  rw [gotoBehind] at hgoto
  simp only [act, h, hp, hgoto]
  rfl

theorem act_accept (h : state.action i = .accept) :
    act tables state m i m.held.leaves = .done m.grown m.comments.reverse := by
  rw [act, h]
  rfl

/-- All that can be done on what is held. -/
theorem act_cases (tables : Tables) (state : Grammar.State) (m : Machine) (i : Nat) :
    (∃ target, state.action i = .shift target ∧
      act tables state m i m.held.leaves = .next (m.shift target)) ∨
    (∃ p production goto, state.action i = .reduce p ∧ tables.productions[p]? = some production ∧
      m.gotoBehind tables production = some goto ∧
      act tables state m i m.held.leaves = .next (m.reduce tables production goto.target)) ∨
    (state.action i = .accept ∧ act tables state m i m.held.leaves = .done m.grown m.comments.reverse) ∨
    act tables state m i m.held.leaves = .failed m.fault := by
  cases haction : state.action i with
  | shift target => exact .inl ⟨target, rfl, act_shift haction⟩
  | reduce p =>
    cases hp : tables.productions[p]? with
    | none => exact .inr (.inr (.inr (by simp only [act, haction, hp])))
    | some production =>
      cases hgoto : m.gotoBehind tables production with
      | none =>
        rw [gotoBehind] at hgoto
        exact .inr (.inr (.inr (by simp only [act, haction, hp, hgoto])))
      | some goto => exact .inr (.inl ⟨p, production, goto, rfl, hp, hgoto, act_reduce haction hp hgoto⟩)
  | accept => exact .inr (.inr (.inl ⟨rfl, act_accept haction⟩))
  | fail => exact .inr (.inr (.inr (by rw [act, haction])))

/-! ## Tokens -/

/-- The tokens found so far. -/
def tokens (m : Machine) : List Token := tokensAll m.grown ++ tokensAll m.held.leaves

/-- The texts of the tokens found so far. -/
def texts (m : Machine) : List String := textsOf m.grown ++ textsOf m.held.leaves

theorem texts_eq (m : Machine) : m.texts = m.tokens.map (·.text) := List.map_append.symm

theorem tokensAll_push (f : Frame) (stack : List Frame) : tokensAll ((f :: stack).reverse.flatMap Frame.forest) =
    tokensAll (stack.reverse.flatMap Frame.forest) ++ tokensAll f.forest := by
  rw [List.reverse_cons, List.flatMap_append, tokensAll_append]
  simp

/-- A shift and a reduction keep the tokens, and only a shift puts some on the stack. -/
theorem act_tokens (h : act tables state m i m.held.leaves = .next m') :
    m'.tokens = m.tokens ∧ (m'.held = .nothing ∨ tokensAll m'.grown = tokensAll m.grown ∧ m'.held = m.held) := by
  rcases act_cases tables state m i with ⟨target, -, hact⟩ | ⟨p, production, goto, -, -, -, hact⟩ | ⟨-, hact⟩ | hact
  · cases h.symm.trans hact
    refine ⟨?_, .inl rfl⟩
    rw [tokens, tokens, grown, shift, tokensAll_push]
    exact List.append_nil _
  · cases h.symm.trans hact
    have hstack := congrArg List.reverse (List.take_append_drop production.rhs.length m.stack)
    rw [List.reverse_append] at hstack
    have hgrown : tokensAll (m.reduce tables production goto.target).grown = tokensAll m.grown := by
      rw [grown, grown, reduce, tokensAll_push, tokensAll_reduced, ← tokensAll_append, ← List.flatMap_append, hstack]
    exact ⟨congrArg (· ++ tokensAll m.held.leaves) hgrown, .inr ⟨hgrown, rfl⟩⟩
  · cases h.symm.trans hact
  · cases h.symm.trans hact

/-- So they keep the texts of the tokens. -/
theorem act_texts (h : act tables state m i m.held.leaves = .next m') :
    m'.texts = m.texts ∧ (m'.held = .nothing ∨ textsOf m'.grown = textsOf m.grown ∧ m'.held = m.held) := by
  obtain ⟨htokens, hkept⟩ := act_tokens h
  exact ⟨by rw [texts_eq, texts_eq, htokens], hkept.imp_right fun ⟨hgrown, hheld⟩ => ⟨congrArg (List.map _) hgrown, hheld⟩⟩

/-- Without a held token, the tokens are those of the trees. -/
theorem texts_nothing (h : m.held = .nothing) : m.texts = textsOf m.grown := by
  rw [texts, h]
  simp [Held.leaves, textsOf, tokensAll]

theorem took_texts (h : m.held = .nothing) (t : Token) (after : Cursor) (comments : List Comment) :
    (m.took t after comments).texts = m.texts ++ [t.text] := by
  rw [texts_nothing h]
  rfl

/-! ## Moves of a run -/

/-- A move that goes on looks for a token or acts on one. -/
theorem step_next (h : step tables m = .next m') : ∃ state, tables.states[topState m.stack]? = some state ∧
    (m.held = .nothing ∧ find state m = .next m' ∨
      ∃ i, m.held.index? = some i ∧ act tables state m i m.held.leaves = .next m') := by
  cases hs : tables.states[topState m.stack]? with
  | none =>
    rw [step, hs] at h
    cases h
  | some state =>
    refine ⟨state, rfl, ?_⟩
    cases hi : m.held.index? with
    | none =>
      have hheld := Held.index?_eq_none.mp hi
      exact .inl ⟨hheld, (step_nothing hs hheld).symm.trans h⟩
    | some i => exact .inr ⟨i, rfl, (step_held hs hi).symm.trans h⟩

/-- A move that comes to the end accepts. -/
theorem step_done (h : step tables m = .done forest comments) : ∃ state i,
    tables.states[topState m.stack]? = some state ∧ m.held.index? = some i ∧ state.action i = .accept ∧
      forest = m.grown ∧ comments = m.comments.reverse := by
  cases hs : tables.states[topState m.stack]? with
  | none =>
    rw [step, hs] at h
    cases h
  | some state =>
    cases hi : m.held.index? with
    | none =>
      rw [step_nothing hs (Held.index?_eq_none.mp hi)] at h
      unfold find at h
      split at h <;> cases h
    | some i =>
      rw [step_held hs hi] at h
      rcases act_cases tables state m i with ⟨target, -, hact⟩ | ⟨p, production, goto, -, -, -, hact⟩ |
        ⟨haction, hact⟩ | hact
      · cases h.symm.trans hact
      · cases h.symm.trans hact
      · cases h.symm.trans hact
        exact ⟨state, i, rfl, rfl, haction, rfl, rfl⟩
      · cases h.symm.trans hact

end Machine

end ProtoBind.Source
