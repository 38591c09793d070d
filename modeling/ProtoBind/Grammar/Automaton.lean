/-
The LALR(1) automaton of a grammar.

Sets of numbers are bit masks. An item is a place in a production; items are
numbered along the productions, so that the item behind a symbol has the next
number. States are the sets of items of the LR(0) automaton. What can follow
a nonterminal is known for each state it is begun in: it is passed on from
the constructs around it until nothing changes, and a production is reduced
on what can follow its nonterminal there. Where a shift and a reduction
compete the shift wins.
-/
import Std.Data.TreeMap
import ProtoBind.Grammar.Basic

namespace ProtoBind.Grammar

/-! ## Sets of numbers -/

def bit (n : Nat) : Nat := 1 <<< n

def hasBit (mask n : Nat) : Bool := mask.testBit n

def union (a b : Nat) : Nat := Nat.lor a b

def inter (a b : Nat) : Nat := Nat.land a b

def isEmpty (mask : Nat) : Bool := Nat.beq mask 0

/-- Sets side by side in one number: set `i` takes the bits from `width * i` on. -/
structure Family where
  width : Nat
  bits : Nat
  deriving DecidableEq, Repr, Inhabited

namespace Family

def empty (width : Nat) : Family := ⟨width, 0⟩

def get (f : Family) (i : Nat) : Nat := (f.bits >>> (f.width * i)) % (1 <<< f.width)

/-- Adds the members of `mask` to set `i`. -/
def add (f : Family) (i mask : Nat) : Family := ⟨f.width, union f.bits (mask <<< (f.width * i))⟩

end Family

/-- Applies `f` until it changes nothing, at most `fuel` times. -/
def fixpoint {α : Type} [DecidableEq α] (f : α → α) : (fuel : Nat) → α → α
  | 0, x => x
  | fuel + 1, x =>
    let y := f x
    if y = x then x else fixpoint f fuel y

/-! ## What nonterminals begin with -/

/-- The terminals that a symbol string can begin with, and `after` when it can be empty. -/
def firstOf (nullable : Nat) (first : Family) (after : Nat) : List Symbol → Nat
  | [] => after
  | .terminal t :: _ => bit t
  | .nonterminal n :: rest =>
    bif hasBit nullable n then union (first.get n) (firstOf nullable first after rest)
    else first.get n

def allNullable (nullable : Nat) (rhs : List Symbol) : Bool :=
  rhs.all fun
    | .terminal _ => false
    | .nonterminal n => hasBit nullable n

def nullableRound (productions : List Production) (mask : Nat) : Nat :=
  productions.foldl (fun m p => bif allNullable m p.rhs then union m (bit p.lhs) else m) mask

def firstRound (productions : List Production) (nullable : Nat) (first : Family) : Family :=
  productions.foldl (fun f p => f.add p.lhs (firstOf nullable f 0 p.rhs)) first

/-- The nonterminals that derive the empty string. -/
def nullable (g : Grammar) : Nat :=
  fixpoint (nullableRound g.productions) (g.nonterminals + 1) 0

/-- The terminals that what a nonterminal derives can begin with. -/
def first (g : Grammar) : Family :=
  fixpoint (firstRound g.productions g.nullable) (g.nonterminals + 1) (.empty (g.terminals + 1))

/-! ## Items -/

/-- The items of some productions: how many there are, those with a place before each terminal
and each nonterminal, and those at the beginning of each nonterminal's productions. -/
structure Items where
  count : Nat
  beforeTerminal : Family
  beforeNonterminal : Family
  starts : Family

namespace Items

def addRhs (items : Items) : List Symbol → Items
  | [] => { items with count := items.count + 1 }
  | .terminal t :: rest =>
    addRhs { items with
      count := items.count + 1
      beforeTerminal := items.beforeTerminal.add t (bit items.count) } rest
  | .nonterminal n :: rest =>
    addRhs { items with
      count := items.count + 1
      beforeNonterminal := items.beforeNonterminal.add n (bit items.count) } rest

def addProduction (items : Items) (p : Production) : Items :=
  { items with starts := items.starts.add p.lhs (bit items.count) }.addRhs p.rhs

def ofProductions (ps : List Production) : Items :=
  let width := ps.foldl (fun width p => width + p.rhs.length + 1) 0
  ps.foldl addProduction ⟨0, .empty width, .empty width, .empty width⟩

/-- Adds to the items at the beginning of a nonterminal those of the nonterminals it can begin
with. -/
def openRound (ps : List Production) (opens : Family) : Family :=
  ps.foldl (fun f p => match p.rhs with
    | .nonterminal n :: _ => f.add p.lhs (f.get n)
    | _ => f) opens

end Items

/-- A terminal with the items before it. -/
structure TerminalItems where
  terminal : Nat
  before : Nat

/-- A nonterminal with the items before it and those that begin where it is begun. -/
structure NonterminalItems where
  nonterminal : Nat
  before : Nat
  opens : Nat

/-- What the states are made of: the items at each symbol, and the item that stands before
the whole text. -/
structure Places where
  terminals : List TerminalItems
  nonterminals : List NonterminalItems
  start : Nat

/-- The items of the productions of a grammar and of one more production, for the whole text. -/
def places (g : Grammar) : Places :=
  let items := Items.ofProductions (g.productions ++ [⟨g.nonterminals, [.nonterminal g.start]⟩])
  let opens := fixpoint (Items.openRound g.productions) (g.nonterminals + 1) items.starts
  { terminals := (List.range g.terminals).map fun t => ⟨t, items.beforeTerminal.get t⟩
    nonterminals := (List.range g.nonterminals).map fun n =>
      ⟨n, items.beforeNonterminal.get n, opens.get n⟩
    start := bit (items.count - 2) }

namespace Places

/-- All items of a state: those that define it and those that begin there. -/
def closure (places : Places) (kernel : Nat) : Nat :=
  places.nonterminals.foldl (fun items n =>
    bif isEmpty (inter kernel n.before) then items else union items n.opens) kernel

/-- The items behind each terminal that stands before one of the items. -/
def afterTerminals (places : Places) (items : Nat) : List (Nat × Nat) :=
  places.terminals.filterMap fun t =>
    bif isEmpty (inter items t.before) then none else some (t.terminal, 2 * inter items t.before)

/-- The items behind each nonterminal that stands before one of the items. -/
def afterNonterminals (places : Places) (items : Nat) : List (Nat × Nat) :=
  places.nonterminals.filterMap fun n =>
    bif isEmpty (inter items n.before) then none
    else some (n.nonterminal, 2 * inter items n.before)

end Places

/-! ## States -/

/-- Where a state leads, by number: after each terminal and after each nonterminal. -/
structure Row where
  shifts : List (Nat × Nat)
  gotos : List (Nat × Nat)
  deriving Repr, Inhabited

/-- The numbers of the states found so far, and the states that are still to be explored. -/
structure Found where
  numbers : Std.TreeMap Nat Nat
  fresh : List Nat

namespace Found

/-- The number of a state, entered if it is new. -/
def number (f : Found) (kernel : Nat) : Nat × Found :=
  match f.numbers[kernel]? with
  | some i => (i, f)
  | none => (f.numbers.size, ⟨f.numbers.insert kernel f.numbers.size, f.fresh ++ [kernel]⟩)

def numberAll : List (Nat × Nat) → Found → List (Nat × Nat) × Found
  | [], f => ([], f)
  | (symbol, kernel) :: rest, f =>
    let (i, f) := f.number kernel
    let (links, f) := numberAll rest f
    ((symbol, i) :: links, f)

end Found

/-- Explores the states in the order in which they are found; `rows` holds those explored, the
latest first. -/
def explore (places : Places) : (fuel : Nat) → Found → (rows : List Row) → List Row
  | 0, _, rows => rows.reverse
  | fuel + 1, f, rows =>
    match f.fresh with
    | [] => rows.reverse
    | kernel :: fresh =>
      let items := places.closure kernel
      let (shifts, f) := Found.numberAll (places.afterTerminals items) { f with fresh := fresh }
      let (gotos, f) := Found.numberAll (places.afterNonterminals items) f
      explore places fuel f (⟨shifts, gotos⟩ :: rows)

/-- The states of a grammar by number; the first one is where parsing starts. -/
def rows (g : Grammar) : List Row :=
  let start := g.places.start
  explore g.places 4096 ⟨(∅ : Std.TreeMap Nat Nat).insert start 0, [start]⟩ []

/-! ## What can follow -/

/-- The states with their gotos numbered. -/
structure Map where
  rows : Std.TreeMap Nat Row
  /-- The states and the nonterminals that can be begun in them. -/
  gotos : List (Nat × Nat)
  numbers : Std.TreeMap Nat Nat
  nonterminals : Nat

namespace Map

def ofRows (nonterminals : Nat) (rows : List Row) : Map :=
  let gotos := rows.zipIdx.flatMap fun (row, s) => row.gotos.map fun (n, _) => (s, n)
  { rows := .ofList (rows.zipIdx.map fun (row, s) => (s, row))
    gotos := gotos
    numbers := .ofList (gotos.zipIdx.map fun ((s, n), i) => (s * nonterminals + n, i))
    nonterminals := nonterminals }

/-- The number of a goto. -/
def number (m : Map) (s n : Nat) : Nat := m.numbers.getD (s * m.nonterminals + n) 0

def shift (m : Map) (s t : Nat) : Nat := ((m.rows[s]?.bind (·.shifts.lookup t))).getD 0

def goto (m : Map) (s n : Nat) : Nat := ((m.rows[s]?.bind (·.gotos.lookup n))).getD 0

end Map

/-- A nonterminal begun inside another: what follows it begins with `rest`, and with what
follows the outer one. Both are given by their gotos. -/
structure Flow where
  outer : Nat
  inner : Nat
  rest : List Symbol

/-- A production that is complete in a state, and the goto of its nonterminal. -/
structure Completion where
  state : Nat
  production : Nat
  goto : Nat

/-- Goes along a right-hand side from a state: the nonterminals begun on the way, and the state
where it is complete. -/
def trace (m : Map) (outer : Nat) : (state : Nat) → List Symbol → List Flow × Nat
  | s, [] => ([], s)
  | s, .terminal t :: rest => trace m outer (m.shift s t) rest
  | s, .nonterminal n :: rest =>
    let (flows, last) := trace m outer (m.goto s n) rest
    (⟨outer, m.number s n, rest⟩ :: flows, last)

/-- The productions of each nonterminal, with their numbers. -/
def alternatives (g : Grammar) : Std.TreeMap Nat (List (Nat × List Symbol)) :=
  g.productions.zipIdx.foldl
    (fun m (p, i) => m.insert p.lhs (m.getD p.lhs [] ++ [(i, p.rhs)])) ∅

/-- All productions along the states where they can begin. -/
def traces (g : Grammar) (m : Map) : List (List Flow × Completion) :=
  m.gotos.flatMap fun (s, n) =>
    (g.alternatives.getD n []).map fun (i, rhs) =>
      let (flows, last) := trace m (m.number s n) s rhs
      (flows, ⟨last, i, m.number s n⟩)

/-- Passes what follows the outer nonterminals on to the inner ones. -/
def followRound (g : Grammar) (flows : List Flow) (follow : Family) : Family :=
  flows.foldl (fun f w =>
    f.add w.inner (firstOf g.nullable g.first (f.get w.outer) w.rest)) follow

/-- The terminals that can follow at each goto; the end of the text follows the start symbol. -/
def follows (g : Grammar) (m : Map) (flows : List Flow) : Family :=
  fixpoint (g.followRound flows) 4096
    ((Family.empty (g.terminals + 1)).add (m.number 0 g.start) (bit g.terminals))

/-! ## The automaton -/

/-- What to do on a terminal. -/
inductive Action
  | shift (state : Nat)
  | reduce (production : Nat)
  | accept
  | fail
  deriving DecidableEq, Repr, Inhabited

/-- Where to go after a nonterminal, and what can follow it there. -/
structure Goto where
  target : Nat
  follow : Nat
  deriving DecidableEq, Repr, Inhabited

/-- One state: the states behind terminals and nonterminals, the productions that are complete
with the terminals on which they are reduced, and the terminals on which a text is accepted. -/
structure State where
  shifts : List (Nat × Nat)
  gotos : List (Nat × Goto)
  reductions : List (Nat × Nat)
  accepting : Nat
  deriving Repr, Inhabited

namespace State

def action (s : State) (t : Nat) : Action :=
  match s.shifts.lookup t with
  | some target => .shift target
  | none => match s.reductions.find? fun r => hasBit r.2 t with
    | some (p, _) => .reduce p
    | none => if hasBit s.accepting t then .accept else .fail

/-- The terminals with an action. -/
def expected (s : State) : Nat :=
  s.shifts.foldl (fun m r => union m (bit r.1))
    (s.reductions.foldl (fun m r => union m r.2) s.accepting)

end State

/-- Adds terminals on which a production is reduced. -/
def addReduction (p mask : Nat) : List (Nat × Nat) → List (Nat × Nat)
  | [] => [(p, mask)]
  | (q, old) :: rest =>
    if p = q then (q, union old mask) :: rest else (q, old) :: addReduction p mask rest

/-- The reductions of each state. -/
def reductions (follow : Family) (completions : List Completion) :
    Std.TreeMap Nat (List (Nat × Nat)) :=
  completions.foldl (fun m c =>
    m.insert c.state (addReduction c.production (follow.get c.goto) (m.getD c.state []))) ∅

/-- The states of the automaton by number; the first one is where parsing starts. -/
def automaton (g : Grammar) : Std.TreeMap Nat State :=
  let rows := g.rows
  let map := Map.ofRows g.nonterminals rows
  let traces := g.traces map
  let follow := g.follows map (traces.flatMap (·.1))
  let reductions := reductions follow (traces.map (·.2))
  .ofList (rows.zipIdx.map fun (row, s) => (s,
    State.mk row.shifts
      (row.gotos.map fun (n, target) => (n, ⟨target, follow.get (map.number s n)⟩))
      (reductions.getD s [])
      (if s = map.goto 0 g.start then bit g.terminals else 0)))

end ProtoBind.Grammar
