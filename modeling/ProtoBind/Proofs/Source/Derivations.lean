/-
What the grammar derives is parsed.

The trees that symbols stand for are given by derivations (`Derives`). Facing
the tokens of a derivation, the machine moves on to a stack that holds its
trees (`Derives.moves`): in every state the tables know what each nonterminal
can begin with and what can follow it there (`tables_complete`), so a token is
shifted and a production is reduced as the derivation has it. The whole
derivation of a file is accepted (`parseTree_of_derives`).
-/
import Mathlib.Logic.Relation
import ProtoBind.Proofs.Source.Layout

namespace ProtoBind.Source

open Grammar (Production Symbol State Goto hasBit firstOf allNullable isWithin leads)

/-- A token of a terminal without a place. -/
def Token.of (t : Terminal) (text : String) : Token := ⟨t, text, 0, 0⟩

/-- Tables made from a grammar that are complete for it. -/
structure Tables.CompleteFor (tables : Tables) (g : Grammar) : Prop where
  complete : Grammar.isComplete g tables.states = true
  productions : tables.productions = g.productions.toArray
  terminals : g.terminals = Terminal.count

/-- The trees that symbols stand for, in order, as the tables put them together. -/
inductive Derives (g : Grammar) (tables : Tables) : List Symbol → List Tree → Prop
  | nil : Derives g tables [] []
  | terminal {ss : List Symbol} {ts : List Tree} (t : Terminal) (text : String) (rest : Derives g tables ss ts) :
      Derives g tables (.terminal t.index :: ss) (.leaf (.of t text) :: ts)
  | nonterminal {p : Production} {ss : List Symbol} {us ts : List Tree} (hp : p ∈ g.productions)
      (parts : Derives g tables p.rhs us) (rest : Derives g tables ss ts) :
      Derives g tables (.nonterminal p.lhs :: ss) (Machine.reduced tables p.lhs us ++ ts)

/-- The number of the terminal that comes next, that of the end where none does. -/
def look : List Token → Nat
  | [] => Terminal.count
  | k :: _ => k.terminal.index

variable {g : Grammar} {tables : Tables} {states : Std.TreeMap Nat State} {ss : List Symbol} {us ts : List Tree}
  {rest input : List Token} {p : Production} {k : Token} {s follow i n t : Nat} {state : State} {m m' : Machine}

/-! ## What derivations begin with -/

theorem hasBit_within {a b : Nat} (h : isWithin a b = true) (ha : hasBit a t = true) : hasBit b t = true := by
  rw [isWithin, beq_iff_eq] at h
  rw [← h] at ha
  have hand : hasBit (Grammar.inter a b) t = (hasBit a t && hasBit b t) := Nat.testBit_and a b t
  rw [hand, Bool.and_eq_true] at ha
  exact ha.2

/-- What a production begins with is known of its nonterminal. -/
theorem knows_production (h : Grammar.isComplete g states = true) (hp : p ∈ g.productions) :
    isWithin (firstOf g.nullable g.first 0 p.rhs) (g.first.get p.lhs) = true ∧
      (allNullable g.nullable p.rhs = true → hasBit g.nullable p.lhs = true) := by
  rw [Grammar.isComplete, Bool.and_eq_true, Bool.and_eq_true] at h
  have hknows := List.all_eq_true.mp h.1.1 p hp
  rw [Bool.and_eq_true, Bool.or_eq_true] at hknows
  refine ⟨hknows.1, fun hnull => hknows.2.resolve_left ?_⟩
  rw [hnull]
  decide

namespace Derives

/-- Only nullable symbols stand for no tokens. -/
theorem nullable (hg : Grammar.isComplete g states = true) (h : Derives g tables ss ts) (hempty : tokensAll ts = []) :
    allNullable g.nullable ss = true := by
  induction h with
  | nil => rfl
  | terminal => simp [tokensAll, Tree.tokens] at hempty
  | @nonterminal p ss us ts hp parts rest ihparts ihrest =>
    rw [tokensAll_append, tokensAll_reduced, List.append_eq_nil_iff] at hempty
    rw [allNullable, List.all_cons, Bool.and_eq_true]
    exact ⟨(knows_production hg hp).2 (ihparts hempty.1), ihrest hempty.2⟩

/-- What comes first is among the terminals that the symbols can begin with. -/
theorem first (hg : Grammar.isComplete g states = true) (h : Derives g tables ss ts) :
    ∀ {after : Nat} {rest : List Token}, (tokensAll ts = [] → hasBit after (look rest) = true) →
    hasBit (firstOf g.nullable g.first after ss) (look (tokensAll ts ++ rest)) = true := by
  induction h with
  | nil => exact fun hafter => hafter rfl
  | terminal t text rest => exact fun _ => hasBit_bit.mpr rfl
  | @nonterminal p ss us ts hp parts rest ihparts ihrest =>
    intro after more hafter
    rw [tokensAll_append, tokensAll_reduced] at hafter ⊢
    rw [firstOf, List.append_assoc]
    obtain ⟨hfirst, hnullable⟩ := knows_production hg hp
    cases hus : tokensAll us with
    | nil =>
      rw [hnullable (parts.nullable hg hus), cond_true, hasBit_union]
      exact .inr (ihrest fun hts => hafter (by rw [hus, hts]; rfl))
    | cons k us' =>
      have hbegin := @ihparts 0 [] fun hempty => by rw [hus] at hempty; cases hempty
      rw [hus] at hbegin
      have hmem : hasBit (g.first.get p.lhs) k.terminal.index = true := hasBit_within hfirst hbegin
      cases hasBit g.nullable p.lhs with
      | true => exact hasBit_union.mpr (.inl hmem)
      | false => exact hmem

end Derives

/-! ## Ways through the states -/

/-- Where a production is complete, it is reduced on what can follow. -/
theorem leads_nil (h : leads g states follow i s [] = true) : ∃ state, states[s]? = some state ∧
    ∀ t, hasBit follow t = true → state.action t = .reduce i := by
  unfold leads at h
  split at h
  next shifts gotos j mask accepting hs =>
    rw [Bool.and_eq_true, Bool.and_eq_true, beq_iff_eq] at h
    obtain ⟨⟨rfl, hwithin⟩, hshifts⟩ := h
    refine ⟨_, hs, fun t ht => ?_⟩
    have hmask := hasBit_within hwithin ht
    have hnone : shifts.lookup t = none := by
      cases hlookup : shifts.lookup t with
      | none => rfl
      | some target =>
        have hshift := List.all_eq_true.mp hshifts _ (Entries.mem_of_lookup hlookup)
        rw [hmask] at hshift
        cases hshift
    rw [action_eq]
    simp only [hnone, List.find?, hmask]
  next => cases h

theorem leads_terminal (h : leads g states follow i s (.terminal t :: ss) = true) : ∃ state target,
    states[s]? = some state ∧ state.action t = .shift target ∧ leads g states follow i target ss = true := by
  unfold leads at h
  split at h
  next target htarget =>
    obtain ⟨state, hs, hlookup⟩ := Option.bind_eq_some_iff.mp htarget
    exact ⟨state, target, hs, by rw [action_eq, hlookup], h⟩
  next => cases h

theorem leads_nonterminal (h : leads g states follow i s (.nonterminal n :: ss) = true) : ∃ state goto,
    states[s]? = some state ∧ state.gotos.lookup n = some goto ∧
    isWithin (firstOf g.nullable g.first follow ss) goto.follow = true ∧
    leads g states follow i goto.target ss = true := by
  unfold leads at h
  split at h
  next goto hgoto =>
    obtain ⟨state, hs, hlookup⟩ := Option.bind_eq_some_iff.mp hgoto
    rw [Bool.and_eq_true] at h
    exact ⟨state, goto, hs, hlookup, h.1, h.2⟩
  next => cases h

namespace Tables.CompleteFor

/-- From where a nonterminal is begun each of its productions leads to its end. -/
theorem production (h : tables.CompleteFor g) {goto : Goto} (hs : tables.states[s]? = some state)
    (hgoto : state.gotos.lookup p.lhs = some goto) (hp : p ∈ g.productions) :
    ∃ i, tables.productions[i]? = some p ∧ leads g tables.states goto.follow i s p.rhs = true := by
  have hcomplete := h.complete
  rw [Grammar.isComplete, Bool.and_eq_true, Bool.and_eq_true] at hcomplete
  have hmem : (s, state) ∈ tables.states.toList := Std.TreeMap.mem_toList_iff_getElem?_eq_some.mpr hs
  obtain ⟨i, hi⟩ := List.mem_iff_getElem?.mp hp
  have hproduction := List.all_eq_true.mp
    (List.all_eq_true.mp (List.all_eq_true.mp hcomplete.1.2 _ hmem) _ (Entries.mem_of_lookup hgoto)) (p, i)
    (List.mk_mem_zipIdx_iff_getElem?.mpr hi)
  refine ⟨i, by rw [h.productions, List.getElem?_toArray, hi], ?_⟩
  simpa only [Nat.beq_refl, cond_true] using hproduction

/-- The state behind the start symbol accepts at the end of the text. -/
theorem start (h : tables.CompleteFor g) : ∃ state goto final, tables.states[0]? = some state ∧
    state.gotos.lookup g.start = some goto ∧ hasBit goto.follow Terminal.count = true ∧
    tables.states[goto.target]? = some final ∧ final.action Terminal.count = .accept := by
  have hcomplete := h.complete
  rw [Grammar.isComplete, Bool.and_eq_true, Bool.and_eq_true, h.terminals] at hcomplete
  obtain ⟨goto, hgoto, haccepts⟩ := (Option.any_eq_true _ _).mp hcomplete.2
  obtain ⟨state, hs, hlookup⟩ := Option.bind_eq_some_iff.mp hgoto
  rw [Bool.and_eq_true] at haccepts
  obtain ⟨final, hfinal, haccept⟩ := (Option.any_eq_true _ _).mp haccepts.2
  exact ⟨state, goto, final, hs, hlookup, haccepts.1, hfinal, beq_iff_eq.mp haccept⟩

end Tables.CompleteFor

/-! ## Machines before tokens -/

/-- Each token in turn is found at the beginning of the text wherever its terminal is looked for. -/
def Upcoming : List Char → List Token → Prop
  | s, [] => ∀ expected, lexeme expected s = .finish
  | s, k :: ks => k.bare = k ∧ ∃ rest, (∀ expected, hasBit expected k.terminal.index = true →
      lexeme expected s = .token k.terminal k.text rest) ∧ Upcoming rest ks

namespace Machine

/-- The tokens that a machine has before it, with the one that it holds. -/
inductive Faces (m : Machine) : List Token → Prop
  | nothing {input : List Token} (held : m.held = .nothing) (upcoming : Upcoming m.cursor.rest input) : Faces m input
  | token {t : Token} {input : List Token} (held : m.held = .token t) (upcoming : Upcoming m.cursor.rest input) :
      Faces m (t.bare :: input)
  | finish (held : m.held = .finish) : Faces m []

/-- One machine comes from another by moves. -/
abbrev Moves (tables : Tables) : Machine → Machine → Prop :=
  Relation.ReflTransGen fun m m' => step tables m = .next m'

theorem Moves.run (h : Moves tables m m') {forest : List Tree} {comments : List Comment}
    (hdone : step tables m' = .done forest comments) : ∃ fuel, run tables fuel m = .ok (forest, comments) := by
  induction h using Relation.ReflTransGen.head_induction_on with
  | refl => exact ⟨1, by rw [Machine.run, hdone]⟩
  | head hstep _ ih =>
    obtain ⟨fuel, hrun⟩ := ih
    exact ⟨fuel + 1, by rw [Machine.run, hstep]; exact hrun⟩

namespace Faces

/-- Where there is something to do on what comes next, it is held. -/
theorem settle (h : m.Faces input) (hs : tables.states[topState m.stack]? = some state)
    (haction : state.action (look input) ≠ .fail) :
    ∃ m', Moves tables m m' ∧ m'.stack = m.stack ∧ m'.Faces input ∧ m'.held.index? = some (look input) := by
  cases h with
  | token held upcoming => exact ⟨m, .refl, rfl, .token held upcoming, by rw [held]; rfl⟩
  | finish held => exact ⟨m, .refl, rfl, .finish held, by rw [held]; rfl⟩
  | nothing held upcoming =>
    have hlexeme := next_lexeme state.expected m.cursor m.comments
    cases input with
    | nil =>
      rw [upcoming] at hlexeme
      rcases hnext : m.cursor.next state.expected m.comments with ⟨_ | _ | _, passed⟩
      · rw [hnext] at hlexeme
        cases hlexeme
      · exact ⟨_, .single ((step_nothing hs held).trans (find_finish hnext)), rfl, .finish rfl, rfl⟩
      · rw [hnext] at hlexeme
        cases hlexeme
    | cons k ks =>
      obtain ⟨hbare, rest, hfound, hupcoming⟩ := upcoming
      rw [hfound _ (expected_iff.mpr haction)] at hlexeme
      rcases hnext : m.cursor.next state.expected m.comments with ⟨⟨t, after⟩ | _ | _, passed⟩
      · rw [hnext] at hlexeme
        obtain ⟨hterminal, htext, hafter⟩ := Lexeme.token.inj hlexeme
        have hsame : t.bare = k := by rw [← hbare, Token.bare, Token.bare, hterminal, htext]
        have hfaces : (m.took t after passed).Faces (t.bare :: ks) := .token rfl (hafter ▸ hupcoming)
        refine ⟨_, .single ((step_nothing hs held).trans (find_token hnext)), rfl, hsame ▸ hfaces, ?_⟩
        rw [look, ← hterminal]
        rfl
      · rw [hnext] at hlexeme
        cases hlexeme
      · rw [hnext] at hlexeme
        cases hlexeme

/-- The next token is shifted. -/
theorem shift (h : m.Faces (k :: input)) (hs : tables.states[topState m.stack]? = some state) {target : Nat}
    (haction : state.action k.terminal.index = .shift target) : ∃ m', Moves tables m m' ∧
      m'.stack.map Frame.bare = ⟨target, [.leaf k]⟩ :: m.stack.map Frame.bare ∧ m'.Faces input := by
  obtain ⟨m₁, hmoves, hstack, hfaces, hindex⟩ := h.settle hs (by rw [look, haction]; nofun)
  have hstep : step tables m₁ = .next (m₁.shift target) :=
    (step_held (hstack.symm ▸ hs) hindex).trans (act_shift haction)
  refine ⟨m₁.shift target, hmoves.tail hstep, ?_, ?_⟩
  · cases hfaces with
    | token held upcoming => simp [Machine.shift, held, Held.leaves, Frame.bare, bareTrees_eq, Tree.bare, hstack]
    | nothing held => rw [held] at hindex; cases hindex
  · cases hfaces with
    | token held upcoming => exact .nothing rfl upcoming
    | nothing held => rw [held] at hindex; cases hindex

/-- The parts of a production are on the stack and are reduced. -/
theorem reduce (h : m.Faces input) {below : List Frame} {frames : List Frame} {goto : Goto}
    (hs : tables.states[topState m.stack]? = some state) (haction : state.action (look input) = .reduce i)
    (hp : tables.productions[i]? = some p) (hstack : m.stack.map Frame.bare = frames.reverse ++ below)
    (hframes : frames.length = p.rhs.length)
    (hgoto : (tables.states[topState below]?).bind (·.gotos.lookup p.lhs) = some goto) :
    ∃ m', Moves tables m m' ∧ m'.stack.map Frame.bare =
        ⟨goto.target, reduced tables p.lhs (frames.flatMap Frame.forest)⟩ :: below ∧
      m'.Faces input ∧ m'.held.index? = some (look input) := by
  obtain ⟨m₁, hmoves, hsame, hfaces, hindex⟩ := h.settle hs (by rw [haction]; nofun)
  have hlength : frames.reverse.length = p.rhs.length := by rw [List.length_reverse, hframes]
  have htake : (m₁.stack.take p.rhs.length).map Frame.bare = frames.reverse := by
    rw [List.map_take, hsame, hstack, ← hlength, List.take_left]
  have hdrop : (m₁.stack.drop p.rhs.length).map Frame.bare = below := by
    rw [List.map_drop, hsame, hstack, ← hlength, List.drop_left]
  have hbehind : m₁.gotoBehind tables p = some goto := by
    rw [gotoBehind, ← topState_bare, hdrop, hgoto]
  have hstep : step tables m₁ = .next (m₁.reduce tables p goto.target) :=
    (step_held (hsame.symm ▸ hs) hindex).trans (act_reduce haction hp hbehind)
  refine ⟨m₁.reduce tables p goto.target, hmoves.tail hstep, ?_, ?_, hindex⟩
  · simp only [Machine.reduce, List.map_cons, Frame.bare, bareTrees_reduced, bareTrees_flatMap, List.map_reverse, htake,
      List.reverse_reverse]
    rw [← hdrop]
  · cases hfaces with
    | token held upcoming => exact .token held upcoming
    | nothing held => rw [held] at hindex; cases hindex
    | finish held => exact .finish held

end Faces

end Machine

/-! ## Derivations -/

/-- The machine moves on to where production `i` is complete, with `count` more frames that hold trees and before
other tokens. -/
def Machine.Pushes (g : Grammar) (tables : Tables) (follow i count : Nat) (ts : List Tree) (rest : List Token)
    (m : Machine) : Prop :=
  ∃ (m' : Machine) (frames : List Frame), Moves tables m m' ∧
    m'.stack.map Frame.bare = frames.reverse ++ m.stack.map Frame.bare ∧ frames.length = count ∧
    frames.flatMap Frame.forest = ts ∧ leads g tables.states follow i (topState m'.stack) [] = true ∧ m'.Faces rest

namespace Derives

/-- A nonterminal is put on the stack when its parts are. -/
theorem goes (hg : tables.CompleteFor g) {below : List Frame} {goto : Goto} (hp : p ∈ g.productions)
    (hbelow : m.stack.map Frame.bare = below) (hs : tables.states[Machine.topState below]? = some state)
    (hgoto : state.gotos.lookup p.lhs = some goto) (hfollow : hasBit goto.follow (look rest) = true)
    (hparts : ∀ {i : Nat}, leads g tables.states goto.follow i (Machine.topState m.stack) p.rhs = true →
      m.Pushes g tables goto.follow i p.rhs.length us rest) :
    ∃ m', Machine.Moves tables m m' ∧
      m'.stack.map Frame.bare = ⟨goto.target, Machine.reduced tables p.lhs us⟩ :: below ∧
      m'.Faces rest ∧ m'.held.index? = some (look rest) := by
  have htop : Machine.topState below = Machine.topState m.stack := by rw [← hbelow, Machine.topState_bare]
  obtain ⟨i, hi, hleads⟩ := hg.production hs hgoto hp
  obtain ⟨m₁, frames, hmoves, hstack, hframes, rfl, hend, hfaces⟩ := hparts (htop ▸ hleads)
  obtain ⟨final, hfinal, hreduce⟩ := leads_nil hend
  have hlookup : (tables.states[Machine.topState below]?).bind (·.gotos.lookup p.lhs) = some goto := by
    rw [hs, Option.bind_some, hgoto]
  obtain ⟨m₂, hmoves', hresult⟩ := hfaces.reduce hfinal (hreduce _ hfollow) hi (hbelow ▸ hstack) hframes hlookup
  exact ⟨m₂, hmoves.trans hmoves', hresult⟩

/-- **Before the tokens of a derivation the machine moves on to its trees**, whatever can follow. -/
theorem moves (hg : tables.CompleteFor g) (h : Derives g tables ss ts) : ∀ {m : Machine} {follow i : Nat}
    {rest : List Token}, leads g tables.states follow i (Machine.topState m.stack) ss = true →
    hasBit follow (look rest) = true → m.Faces (tokensAll ts ++ rest) →
    m.Pushes g tables follow i ss.length ts rest := by
  induction h with
  | nil => exact fun {m} _ _ _ hleads _ hfaces => ⟨m, [], .refl, rfl, rfl, rfl, hleads, hfaces⟩
  | terminal t text rest ih =>
    intro m follow i after hleads hfollow hfaces
    obtain ⟨state, target, hs, hshift, hleads⟩ := leads_terminal hleads
    obtain ⟨m₁, hmoves, hstack, hfaces⟩ := hfaces.shift hs hshift
    have htop : Machine.topState m₁.stack = target := by rw [← Machine.topState_bare, hstack]; rfl
    obtain ⟨m₂, frames, hmoves', hstack', hlength, rfl, hend, hfaces'⟩ := ih (htop ▸ hleads) hfollow hfaces
    refine ⟨m₂, ⟨target, [.leaf (.of t text)]⟩ :: frames, hmoves.trans hmoves', ?_, by simp [hlength], rfl, hend, hfaces'⟩
    rw [hstack', hstack]
    simp
  | @nonterminal p ss us ts hp parts rest ihparts ihrest =>
    intro m follow i after hleads hfollow hfaces
    rw [tokensAll_append, tokensAll_reduced, List.append_assoc] at hfaces
    obtain ⟨state, goto, hs, hgoto, hwithin, hleads⟩ := leads_nonterminal hleads
    have hnext : hasBit goto.follow (look (tokensAll ts ++ after)) = true :=
      hasBit_within hwithin (rest.first hg.complete fun _ => hfollow)
    rw [← Machine.topState_bare] at hs
    obtain ⟨m₁, hmoves, hstack, hfaces₁, -⟩ := goes hg hp rfl hs hgoto hnext fun hparts =>
      ihparts hparts hnext hfaces
    have htop : Machine.topState m₁.stack = goto.target := by rw [← Machine.topState_bare, hstack]; rfl
    obtain ⟨m₂, frames, hmoves', hstack', hlength, rfl, hend, hfaces'⟩ := ihrest (htop ▸ hleads) hfollow hfaces₁
    refine ⟨m₂, ⟨goto.target, Machine.reduced tables p.lhs us⟩ :: frames, hmoves.trans hmoves', ?_, by simp [hlength],
      rfl, hend, hfaces'⟩
    rw [hstack', hstack]
    simp

/-- A derivation from the start symbol is accepted. -/
theorem accepted (hg : tables.CompleteFor g) (hp : p ∈ g.productions) (hstart : p.lhs = g.start)
    (h : Derives g tables p.rhs us) {text : List Char} (hup : Upcoming text (tokensAll us)) :
    ∃ fuel forest comments, Machine.run tables fuel (Machine.start text) = .ok (forest, comments) ∧
      bareTrees forest = Machine.reduced tables p.lhs us := by
  obtain ⟨state, goto, final, hs, hgoto, hfollow, hfinal, haccept⟩ := hg.start
  rw [← hstart] at hgoto
  have hend : hasBit goto.follow (look []) = true := hfollow
  have hfaces : (Machine.start text).Faces (tokensAll us ++ []) := by
    rw [List.append_nil]
    exact .nothing rfl hup
  obtain ⟨m, hmoves, hstack, -, hindex⟩ :=
    goes (m := Machine.start text) hg hp rfl hs hgoto hend fun hparts => h.moves hg hparts hend hfaces
  have htop : Machine.topState m.stack = goto.target := by rw [← Machine.topState_bare, hstack]; rfl
  have hdone := (Machine.step_held (htop ▸ hfinal) hindex).trans (Machine.act_accept haccept)
  obtain ⟨fuel, hrun⟩ := hmoves.run hdone
  refine ⟨fuel, _, _, hrun, ?_⟩
  rw [Machine.grown, bareTrees_flatMap, List.map_reverse, hstack]
  simp [Machine.start]

end Derives

end ProtoBind.Source
