/-
The arguments of the command line.

Options have a long and mostly a short spelling. A long one may be cut short
as long as it is told apart from the others and may carry its value behind an
equals sign; a short one may carry its value directly, and short options
without a value may be run together. Everything that is neither an option nor
the value of one is refused, but only after all arguments were looked at.
-/
import ProtoBind.Codegen.Options

namespace ProtoBind.Command

/-- What an option sets. -/
inductive Switch
  | help | input | output | searchPath | naming | index | package | jobs | failFast | verbose
  deriving DecidableEq, Repr, Inhabited

/-- How many values an option takes. -/
inductive Takes
  | none | one | some
  deriving DecidableEq, Repr

namespace Switch

def takes : Switch → Takes
  | help | index | failFast | verbose => .none
  | input => .some
  | _ => .one

end Switch

/-- The spellings of the options. -/
def spellings : List (String × Switch) :=
  [("-h", .help), ("--help", .help), ("--input", .input), ("-i", .input), ("--output", .output),
    ("-o", .output), ("--proto-path", .searchPath), ("-I", .searchPath), ("--naming", .naming),
    ("--index", .index), ("--module-prefix", .package), ("--jobs", .jobs), ("-j", .jobs),
    ("--fail-fast", .failFast), ("--verbose", .verbose), ("-v", .verbose)]

/-- What an argument carries behind its option. -/
structure Carried where
  text : String
  /-- An equals sign stands before it. -/
  equals : Bool
  deriving Repr, Inhabited

/-- What one argument is by itself. -/
inductive Word
  | value
  | separator
  /-- Looks like an option and is none. -/
  | unknown
  /-- An option, with the value it carries. -/
  | option (spelling : String) (option : Switch) (carried : Option Carried)
  deriving Repr, Inhabited

/-- What all arguments say. -/
structure Arguments where
  input : List String
  output : String
  searchPath : List String
  naming : String
  index : Bool
  package : String
  jobs : Int
  failFast : Bool
  verbose : Bool
  deriving Repr, Inhabited

/-- Why arguments say nothing: help was asked for, or they are no proper arguments. -/
inductive Usage
  | help
  | misuse
  deriving DecidableEq, Repr, Inhabited

/-- The exit status that goes with the usage text. -/
def Usage.status : Usage → Nat
  | help => 0
  | misuse => 2

/-! ## Single arguments -/

/-- The text before and behind the first equals sign. -/
def splitEquals (s : String) : Option (String × String) :=
  match s.toList.dropWhile (· != '=') with
  | [] => none
  | _ :: rest => some (String.ofList (s.toList.takeWhile (· != '=')), String.ofList rest)

/-- A text without a line feed at its end. -/
def dropLineFeed (s : List Char) : List Char := if s.getLast? = some '\n' then s.dropLast else s

/-- A minus sign and digits of any script, or a decimal fraction. -/
def isNegativeNumber (s : String) : Bool :=
  let isDigit (c : Char) := (Text.digitValue? c).isSome
  match dropLineFeed s.toList with
  | '-' :: rest =>
    match rest.dropWhile isDigit with
    | [] => !rest.isEmpty
    | '.' :: fraction => !fraction.isEmpty && fraction.all isDigit
    | _ => false
  | _ => false

/-- The options that an argument may mean that is no spelling itself. -/
def candidates (s : String) : List Word :=
  match s.toList with
  | '-' :: '-' :: _ =>
    let (start, carried) := match splitEquals s with
      | some (before, behind) => (before, some (Carried.mk behind true))
      | none => (s, none)
    (spellings.filter fun (spelling, _) => Text.startsWith spelling start).map
      fun (spelling, o) => .option spelling o carried
  | '-' :: c :: rest =>
    (spellings.filter fun (spelling, _) => spelling == String.ofList ['-', c]).map
      fun (spelling, o) => .option spelling o (some ⟨String.ofList rest, false⟩)
  | _ => []

/-- Reads an argument that begins with a minus sign and is no spelling. -/
def classifyOther (s : String) : Except Usage Word :=
  match candidates s with
  | [w] => .ok w
  | _ :: _ :: _ => .error .misuse
  | [] =>
    if isNegativeNumber s || s.toList.contains ' ' then .ok .value else .ok .unknown

/-- What an argument is by itself. -/
def classify (s : String) : Except Usage Word :=
  match s.toList with
  | '-' :: _ :: _ =>
    match spellings.lookup s with
    | some o => .ok (.option s o none)
    | none =>
      match splitEquals s with
      | some (before, behind) =>
        match spellings.lookup before with
        | some o => .ok (.option before o (some ⟨behind, true⟩))
        | none => classifyOther s
      | none => classifyOther s
  | _ => .ok .value

/-- What arguments are: behind a double minus all are values. -/
def classifyAll : List String → Except Usage (List (String × Word))
  | [] => .ok []
  | s :: rest =>
    if s == "--" then .ok ((s, .separator) :: rest.map fun v => (v, .value))
    else do return (s, ← classify s) :: (← classifyAll rest)

/-! ## Sequences of arguments -/

/-- The arguments read so far. -/
structure Draft where
  input : Option (List String) := none
  output : Option String := none
  searchPath : List String := []
  naming : String := "snake_case"
  index : Bool := false
  package : String := ""
  jobs : Int := 1
  failFast : Bool := false
  verbose : Bool := false
  /-- Something was neither an option nor the value of one. -/
  stray : Bool := false
  deriving Inhabited

/-- Carries out an option with its values. -/
def Draft.apply (d : Draft) (o : Switch) (values : List String) : Except Usage Draft :=
  let value := values.headD ""
  match o with
  | .help => .error .help
  | .input => .ok { d with input := some values }
  | .output => .ok { d with output := some value }
  | .searchPath => .ok { d with searchPath := d.searchPath ++ [value] }
  | .naming =>
    if (Codegen.Convention.ofName? value).isSome then .ok { d with naming := value }
    else .error .misuse
  | .index => .ok { d with index := true }
  | .package => .ok { d with package := value }
  | .jobs =>
    match Text.parseInt? value with
    | some n => .ok { d with jobs := n }
    | none => .error .misuse
  | .failFast => .ok { d with failFast := true }
  | .verbose => .ok { d with verbose := true }

/-- How the options of an argument end. -/
inductive Last
  /-- An option with the value it carries. -/
  | carried (option : Switch) (value : String)
  /-- An option whose values, if it takes any, follow. -/
  | following (option : Switch)
  /-- Something that is no option. -/
  | stray

/-- The options of an argument: short options run together all count, and the last may carry a
value or leave it to the arguments behind. -/
def unpack (short : Bool) (o : Switch) (equals : Bool) (carried : List Char) :
    Except Usage (List Switch × Last) :=
  match o.takes, carried with
  | .one, value | .some, value => .ok ([], .carried o (String.ofList value))
  | .none, [] => .error .misuse
  | .none, c :: rest =>
    if !short || equals || c == '-' then .error .misuse
    else match spellings.lookup (String.ofList ['-', c]), rest with
      | none, _ => .ok ([o], .stray)
      | some next, [] => .ok ([o], .following next)
      | some next, '=' :: value => do
        let (before, last) ← unpack true next true value
        return (o :: before, last)
      | some next, rest => do
        let (before, last) ← unpack true next false rest
        return (o :: before, last)
termination_by carried.length

/-- The options of an argument with what it carries. -/
def unpackWord (spelling : String) (o : Switch) : Option Carried → Except Usage (List Switch × Last)
  | none => .ok ([], .following o)
  | some c => unpack (!Text.startsWith spelling "--") o c.equals c.text.toList

/-- The values that follow an option, and what follows them. -/
def leadingValues : List (String × Word) → List String × List (String × Word)
  | (s, .value) :: rest =>
    let (values, rest) := leadingValues rest
    (s :: values, rest)
  | rest => ([], rest)

/-- The values of an option that carries none: the number it takes from those that follow. -/
def valuesFor (o : Switch) (rest : List (String × Word)) :
    Except Usage (List String × List (String × Word)) :=
  match o.takes, rest with
  | .none, rest => .ok ([], rest)
  | .one, (s, .value) :: rest => .ok ([s], rest)
  | .some, (s, .value) :: rest =>
    let (values, rest) := leadingValues rest
    .ok (s :: values, rest)
  | _, _ => .error .misuse

/-- Reads classified arguments in order. Every step takes at least one, so as much `fuel` as
there are arguments is enough. -/
def readWords : (fuel : Nat) → List (String × Word) → Draft → Except Usage Draft
  | _, [], d => .ok d
  | 0, _, d => .ok d
  | fuel + 1, (_, word) :: rest, d =>
    match word with
    | .value | .separator | .unknown => readWords fuel rest { d with stray := true }
    | .option spelling o carried => do
      let (before, last) ← unpackWord spelling o carried
      match last with
      | .carried o value =>
        let d ← before.foldlM (fun d o => d.apply o []) d
        readWords fuel rest (← d.apply o [value])
      | .following o =>
        let (values, rest) ← valuesFor o rest
        let d ← before.foldlM (fun d o => d.apply o []) d
        readWords fuel rest (← d.apply o values)
      | .stray =>
        let d ← before.foldlM (fun d o => d.apply o []) d
        readWords fuel rest { d with stray := true }

/-- Reads the arguments of the command line. -/
def Arguments.parse (args : List String) : Except Usage Arguments := do
  let words ← classifyAll args
  let d ← readWords words.length words {}
  match d.input, d.output with
  | some input, some output =>
    if d.stray then .error .misuse
    else return {
      input := input, output := output, searchPath := d.searchPath, naming := d.naming
      index := d.index, package := d.package, jobs := d.jobs, failFast := d.failFast
      verbose := d.verbose }
  | _, _ => .error .misuse

end ProtoBind.Command
