/-
What is checked of the tables, once for all parses.

The gauge of the tables bounds how many reductions follow one another
(`gauge_fits`). The tables are complete for the grammar (`tables_complete`):
from every state where a nonterminal can begin, each of its productions leads
through the states to one where it is reduced, whatever can follow the
nonterminal there. What is reduced is there on the stack, symbol by symbol
(`trails_fit`). One evaluation finds all of it, since building the automaton
takes most of the time (`tables_checked`).
-/
import Mathlib.Algebra.Group.Nat.Defs
import ProtoBind.Source.Decl

namespace ProtoBind.Source

open Grammar (Production Symbol)

/-! ## Gauges -/

/-- What is known of states: how many frames lie below a state at least, and how long a chain of reductions to constructs
of one symbol can be that begins in it. The latter is known for nonterminals, too. -/
structure Gauge where
  depth : Nat → Nat
  rank : Nat → Nat
  chain : Nat → Nat
  /-- No chain is longer. -/
  top : Nat

namespace Gauge

/-- The potential of a stack: chains go on for as long as the rank of its state. -/
def weight (g : Gauge) (stack : List Frame) : Nat := (g.top + 1) * stack.length + g.rank (Machine.topState stack)

/-- A state that can stand on another. -/
def allows (g : Gauge) (s target : Nat) : Bool := g.depth target ≤ g.depth s + 1 && g.rank target ≤ g.top

/-- The parts of a production are on the stack, and reducing them makes the potential smaller. -/
def settles (g : Gauge) (s : Nat) (p : Production) : Bool :=
  p.rhs.length ≤ g.depth s && g.top + 1 + g.chain p.lhs < (g.top + 1) * p.rhs.length + g.rank s

/-- The gauge is right for every state of the tables. -/
def fits (g : Gauge) (tables : Tables) : Bool :=
  g.depth 0 == 0 && tables.states.toList.all fun (s, state) =>
    (state.shifts.all fun shift => shift.1 < Terminal.count && g.allows s shift.2) &&
    (state.gotos.all fun goto => g.allows s goto.2.target && g.rank goto.2.target ≤ g.chain goto.1) &&
    state.reductions.all fun reduction => (tables.productions[reduction.1]?).all (g.settles s)

/-- The moves allowed for a text are more than the gauge asks for. -/
def isSmall (g : Gauge) : Bool := g.top < 64 && g.rank 0 < 255

end Gauge

/-! ## The gauge of the tables -/

/-- How many constructs each nonterminal can become by itself, one after the other. -/
def chainRound (ps : List Production) (chains : List Nat) : List Nat :=
  ps.foldl (fun chains p => match p.rhs with
    | [.nonterminal n] => chains.modify n (max · (chains.getD p.lhs 0 + 1))
    | _ => chains) chains

def chains : List Nat :=
  Grammar.fixpoint (chainRound grammar.productions) (grammar.nonterminals + 1) (List.replicate grammar.nonterminals 0)

def chainTop : Nat := chains.foldl max 0 + 1

/-- The states behind a state, with the symbols between. -/
def symbolSteps (state : Grammar.State) : List (Symbol × Nat) :=
  (state.shifts.map fun shift => (.terminal shift.1, shift.2)) ++
    state.gotos.map fun goto => (.nonterminal goto.1, goto.2.target)

/-- The states behind a state, with the ranks of the symbols between. -/
def stepsOf (state : Grammar.State) : List (Nat × Nat) :=
  (state.shifts.map fun shift => (shift.2, chainTop)) ++ state.gotos.map fun goto => (goto.2.target, chains.getD goto.1 0)

/-- The ranks of the states, side by side in one number; the first state is begun in once. -/
def ranks : Grammar.Family :=
  automaton.toList.foldl (fun ranks entry => (stepsOf entry.2).foldl (fun ranks step => ranks.add step.1 step.2) ranks)
    ((Grammar.Family.empty 16).add 0 (2 * chainTop + 2))

/-- The depths of the states, which are numbered as they are found; that of the first one is nothing. -/
def depths : Grammar.Family :=
  automaton.toList.foldl (fun depths entry => (stepsOf entry.2).foldl (fun depths step =>
    bif Grammar.isEmpty (depths.get step.1) then depths.add step.1 (depths.get entry.1 + 1) else depths) depths) (.empty 16)

def gauge : Gauge where
  depth := depths.get
  rank := ranks.get
  chain n := chains.getD n 0
  top := chainTop

/-! ## Trails -/

/-- The digit of a symbol in a trail. A trail is what is known of a stack: the symbols that the topmost trees stand for,
as a number whose last digit is the tree on top. Nothing is known beyond the first digit, or there is nothing more on the
stack when that is a one. -/
def digit : Symbol → Nat
  | .terminal t => 2 * t + 2
  | .nonterminal n => 2 * n + 3

/-- One more symbol on top. -/
def digitOn (trail : Nat) (x : Symbol) : Nat := digit x + 256 * trail

def trailOf (symbols : List Symbol) : Nat := symbols.foldl digitOn 0

/-- The last digits. -/
def lastDigits (trail n : Nat) : Nat := trail % 256 ^ n

def digitCount (trail : Nat) : Nat := trail.log2 / 8 + 1

/-- The trails are right: a state is entered with the symbol before it on top, what is reduced has its parts there, and
where a text is accepted there is nothing but the start symbol. -/
def fitsTrails (tables : Tables) (start : Nat) (trail : Nat → Nat) : Bool :=
  trail 0 == 1 && tables.states.toList.all fun (s, state) =>
    (symbolSteps state).all (fun step =>
      digit step.1 < 256 && trail step.2 == lastDigits (digitOn (trail s) step.1) (digitCount (trail step.2))) &&
    (state.reductions.all fun reduction => (tables.productions[reduction.1]?).all fun p =>
      (p.rhs.all fun x => digit x < 256) && trailOf p.rhs == lastDigits (trail s) p.rhs.length) &&
    (Grammar.isEmpty state.accepting || trail s == digitOn 1 (.nonterminal start))

/-- What two trails end in. -/
def commonDigits : (fuel : Nat) → Nat → Nat → Nat
  | 0, _, _ => 0
  | fuel + 1, a, b => bif (a % 256).beq (b % 256) then a % 256 + 256 * commonDigits fuel (a / 256) (b / 256) else 0

/-- Goes once over the states, which are numbered as they are found. -/
def trailsRound (trails : Grammar.Family) : Grammar.Family :=
  automaton.toList.foldl (fun trails entry => (symbolSteps entry.2).foldl (fun trails step =>
    let known := trails.get step.2
    let trail := lastDigits (digitOn (trails.get entry.1) step.1) 15
    bif Grammar.isEmpty known then trails.add step.2 trail
    else ⟨trails.width, trails.bits - ((known - commonDigits 15 known trail) <<< (trails.width * step.2))⟩) trails) trails

/-- The trails of the states, side by side in one number, which two rounds find. -/
def trails : Grammar.Family := trailsRound (trailsRound ((Grammar.Family.empty 128).add 0 1))

/-! ## Complete tables -/

end ProtoBind.Source

namespace ProtoBind.Grammar

/-- Every member of `a` is one of `b`. -/
def isWithin (a b : Nat) : Bool := inter a b == a

/-- What each production begins with is known of its nonterminal. -/
def knowsFirst (g : Grammar) (nullable : Nat) (first : Family) : Bool :=
  g.productions.all fun p => isWithin (firstOf nullable first 0 p.rhs) (first.get p.lhs) &&
    (!allNullable nullable p.rhs || hasBit nullable p.lhs)

/-- Goes along symbols from a state to one where production `i` is complete, and reduced on `follow`. What can follow
each nonterminal on the way is known there. -/
def leads (g : Grammar) (states : Std.TreeMap Nat State) (follow i : Nat) : Nat → List Symbol → Bool
  | s, [] => match states[s]? with
    | some ⟨shifts, _, [(j, mask)], _⟩ =>
      j == i && isWithin follow mask && shifts.all fun shift => !hasBit mask shift.1
    | _ => false
  | s, .terminal t :: rest => match (states[s]?).bind (·.shifts.lookup t) with
    | some target => leads g states follow i target rest
    | none => false
  | s, .nonterminal n :: rest => match (states[s]?).bind (·.gotos.lookup n) with
    | some goto =>
      isWithin (firstOf g.nullable g.first follow rest) goto.follow && leads g states follow i goto.target rest
    | none => false

/-- Every production leads through the states from wherever its nonterminal can begin, and the text is accepted behind
the start symbol. -/
def isComplete (g : Grammar) (states : Std.TreeMap Nat State) : Bool :=
  knowsFirst g g.nullable g.first &&
  (states.toList.all fun entry => entry.2.gotos.all fun goto => g.productions.zipIdx.all fun production =>
    bif production.1.lhs.beq goto.1 then leads g states goto.2.follow production.2 entry.1 production.1.rhs else true) &&
  ((states[0]?).bind (·.gotos.lookup g.start)).any fun goto => hasBit goto.follow g.terminals &&
    (states[goto.target]?).any fun state => state.action g.terminals == .accept

end ProtoBind.Grammar

namespace ProtoBind.Source

/-- All that is found by evaluation, which builds the automaton once. -/
theorem tables_checked : (gauge.fits tables && gauge.isSmall && Grammar.isComplete grammar automaton &&
    fitsTrails tables grammar.start trails.get) = true := by
  decide +kernel

theorem gauge_fits : gauge.fits tables = true := by
  have h := tables_checked
  simp only [Bool.and_eq_true] at h
  exact h.1.1.1

theorem gauge_isSmall : gauge.isSmall = true := by
  have h := tables_checked
  simp only [Bool.and_eq_true] at h
  exact h.1.1.2

theorem tables_complete : Grammar.isComplete grammar automaton = true := by
  have h := tables_checked
  simp only [Bool.and_eq_true] at h
  exact h.1.2

theorem trails_fit : fitsTrails tables grammar.start trails.get = true := by
  have h := tables_checked
  simp only [Bool.and_eq_true] at h
  exact h.2

end ProtoBind.Source
