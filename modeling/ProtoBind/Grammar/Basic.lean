/-
Context-free grammars with numbered symbols, and the rule expressions they
are written in.

`Expr.lower` turns a rule expression into alternatives without repetition: a
repetition becomes a helper nonterminal that derives one or more items, shared
by all repetitions of the same expression, and an option becomes two
alternatives.
-/
namespace ProtoBind

namespace Grammar

/-- A terminal or a nonterminal, by number. -/
inductive Symbol
  | terminal (t : Nat)
  | nonterminal (n : Nat)
  deriving DecidableEq, Repr, Inhabited

/-- One alternative of a nonterminal. -/
structure Production where
  lhs : Nat
  rhs : List Symbol
  deriving DecidableEq, Repr, Inhabited

/-- The right-hand side of a rule. -/
inductive Expr
  | empty
  | terminal (t : Nat)
  | rule (n : Nat)
  | seq (a b : Expr)
  | alt (a b : Expr)
  | opt (a : Expr)
  /-- None or more. -/
  | many (a : Expr)
  /-- One or more. -/
  | some (a : Expr)
  deriving DecidableEq, Repr, Inhabited

namespace Expr

def seqAll : List Expr → Expr
  | [] => empty
  | [a] => a
  | a :: rest => seq a (seqAll rest)

def altAll : List Expr → Expr
  | [] => empty
  | [a] => a
  | a :: rest => alt a (altAll rest)

/-- The helper for repetitions of `a`: its number among the helpers, entered if it is new. -/
def helper (a : Expr) : StateM (List Expr) Nat := fun known =>
  match known.findIdx? (· == a) with
  | Option.some i => (i, known)
  | none => (known.length, known ++ [a])

/-- The alternatives of an expression; helpers are numbered from `base`. -/
def lower (base : Nat) : Expr → StateM (List Expr) (List (List Symbol))
  | empty => return [[]]
  | terminal t => return [[.terminal t]]
  | rule n => return [[.nonterminal n]]
  | seq a b => do
    let left ← lower base a
    let right ← lower base b
    return left.flatMap fun l => right.map (l ++ ·)
  | alt a b => do
    let left ← lower base a
    let right ← lower base b
    return left ++ right
  | opt a => return (← lower base a) ++ [[]]
  | many a => do
    let _ ← lower base a
    return [[.nonterminal (base + (← helper a))], []]
  | some a => do
    let _ ← lower base a
    return [[.nonterminal (base + (← helper a))]]

end Expr

end Grammar

/-- A grammar: its productions, its start symbol, and how many symbols it has. Nonterminals
from `rules` on are helpers. -/
structure Grammar where
  productions : List Grammar.Production
  start : Nat
  terminals : Nat
  rules : Nat
  nonterminals : Nat
  deriving Repr, Inhabited

namespace Grammar

/-- All rules, lowered in order, with the helpers they need. -/
def lowerRules (base : Nat) : List (Nat × Expr) → StateM (List Expr) (List Production)
  | [] => return []
  | (n, e) :: rest => do
    let alternatives ← e.lower base
    let more ← lowerRules base rest
    return alternatives.map (⟨n, ·⟩) ++ more

/-- The productions of a helper: one item, or the items before it and one more. -/
def helperProductions (base : Nat) (known : List Expr) (i : Nat) (e : Expr) : List Production :=
  let alternatives := (e.lower base known).1
  alternatives.map (⟨base + i, ·⟩) ++
    alternatives.map fun a => ⟨base + i, .nonterminal (base + i) :: a⟩

/-- The grammar of a list of rules; rule `i` of the list is nonterminal `i`. -/
def ofRules (terminals start : Nat) (rules : List Expr) : Grammar :=
  let base := rules.length
  let (productions, helpers) := lowerRules base (rules.zipIdx.map fun (e, i) => (i, e)) []
  let extra := helpers.zipIdx.flatMap fun (e, i) => helperProductions base helpers i e
  { productions := productions ++ extra
    start := start
    terminals := terminals
    rules := base
    nonterminals := base + helpers.length }

end Grammar
end ProtoBind
