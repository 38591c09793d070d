/-
Parsing a text into a tree of constructs.

The parser is a stack machine driven by the automaton of the grammar. The
state on top of the stack says which terminals the lexer may find next. A
token that was found is held until the reductions before it are done and it
is shifted. Trees keep every token, so their leaves in order are the tokens
of the text.
-/
import ProtoBind.Source.Rules
import ProtoBind.Source.Token

namespace ProtoBind.Source

/-- A construct with its parts, or a token. -/
inductive Tree
  | leaf (t : Token)
  | node (rule : Rule) (children : List Tree)
  deriving Repr, Inhabited

mutual

/-- The tokens of a tree in order. -/
def Tree.tokens : Tree → List Token
  | .leaf t => [t]
  | .node _ children => tokensAll children

def tokensAll : List Tree → List Token
  | [] => []
  | t :: rest => t.tokens ++ tokensAll rest

end

mutual

/-- The first token of a tree. -/
def Tree.first? : Tree → Option Token
  | .leaf t => some t
  | .node _ children => firstToken? children

def firstToken? : List Tree → Option Token
  | [] => none
  | t :: rest => match t.first? with
    | some k => some k
    | none => firstToken? rest

end

/-- The tables that drive the machine. -/
structure Tables where
  states : Std.TreeMap Nat Grammar.State
  productions : Array Grammar.Production
  rules : Array Rule

/-- The tables of the schema language. -/
def tables : Tables := ⟨automaton, productions, Rule.all.toArray⟩

/-- A state and the trees parsed on the way to it from the state below. -/
structure Frame where
  state : Nat
  forest : List Tree
  deriving Inhabited

/-- The token that waits to be shifted. -/
inductive Held
  | nothing
  | token (t : Token)
  | finish
  deriving Inhabited

/-- A state of the machine: the stack, the place in the text, the held token, the last token
found, and the comments passed, the latest first. -/
structure Machine where
  stack : List Frame
  cursor : Cursor
  held : Held
  last : Option Token
  comments : List Comment
  deriving Inhabited

inductive Step
  | next (m : Machine)
  | done (forest : List Tree) (comments : List Comment)
  | failed (fault : SyntaxFault)
  deriving Inhabited

namespace Machine

def start (text : List Char) : Machine := ⟨[], Cursor.ofText text, .nothing, none, []⟩

def topState : List Frame → Nat
  | [] => 0
  | f :: _ => f.state

/-- The fault of the held token, or of the end of the text, which is placed at the last token. -/
def fault (m : Machine) : SyntaxFault :=
  match m.held, m.last with
  | .token t, _ => .unexpected t.terminal.name t.text t.line t.column
  | _, some t => .unexpected "$END" "" t.line t.column
  | _, none => .unexpected "$END" "" 1 1

/-- The trees that a reduction makes of the trees it takes: a helper's are passed on, all
others become parts of a construct. -/
def reduced (tables : Tables) (lhs : Nat) (forest : List Tree) : List Tree :=
  match tables.rules[lhs]? with
  | some rule => [.node rule forest]
  | none => forest

/-- Finds the next token under the terminals that the state expects. -/
def find (state : Grammar.State) (m : Machine) : Step :=
  match m.cursor.next state.expected m.comments with
  | (.token t after, comments) =>
    .next { m with cursor := after, held := .token t, last := some t, comments := comments }
  | (.finish, comments) => .next { m with held := .finish, comments := comments }
  | (.stray c, _) => .failed c.fault

/-- Acts on the held token. -/
def act (tables : Tables) (state : Grammar.State) (m : Machine) (terminal : Nat)
    (leaf : List Tree) : Step :=
  match state.action terminal with
  | .shift target => .next { m with stack := ⟨target, leaf⟩ :: m.stack, held := .nothing }
  | .reduce p =>
    match tables.productions[p]? with
    | none => .failed m.fault
    | some production =>
      let n := production.rhs.length
      let below := m.stack.drop n
      let forest := (m.stack.take n).reverse.flatMap Frame.forest
      match tables.states[topState below]?.bind fun s => s.gotos.lookup production.lhs with
      | none => .failed m.fault
      | some goto =>
        .next { m with stack := ⟨goto.target, reduced tables production.lhs forest⟩ :: below }
  | .accept => .done (m.stack.reverse.flatMap Frame.forest) m.comments.reverse
  | .fail => .failed m.fault

/-- One move: find a token, shift, reduce, accept or fail. -/
def step (tables : Tables) (m : Machine) : Step :=
  match tables.states[topState m.stack]? with
  | none => .failed m.fault
  | some state =>
    match m.held with
    | .nothing => find state m
    | .token t => act tables state m t.terminal.index [.leaf t]
    | .finish => act tables state m Terminal.count []

/-- Moves until the machine accepts or fails. -/
def run (tables : Tables) : (fuel : Nat) → Machine → Except SyntaxFault (List Tree × List Comment)
  | 0, m => .error m.fault
  | fuel + 1, m =>
    match step tables m with
    | .next m => run tables fuel m
    | .done forest comments => .ok (forest, comments)
    | .failed fault => .error fault

end Machine

/-- More moves than a parse can take: each character gives at most one token, and a token is
found, shifted, and followed by a bounded number of reductions. -/
def enoughMoves (text : List Char) : Nat := 256 * (text.length + 1)

/-- The tree of a text and its comments, in order. -/
def parseTree (text : List Char) : Except SyntaxFault (List Tree × List Comment) :=
  Machine.run tables (enoughMoves text) (Machine.start text)

end ProtoBind.Source
