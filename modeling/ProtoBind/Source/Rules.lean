/-
The grammar of the schema language and its automaton.
-/
import ProtoBind.Grammar.Automaton
import ProtoBind.Source.Terminal

namespace ProtoBind.Source

/-- The constructs of the schema language. -/
inductive Rule
  | file | statement | syntaxDecl | editionDecl | packageDecl | importDecl | importKind
  | optionDecl | empty | optionName | optionPart | extensionName
  | constant | number | strings | aggregate | aggregateEntry | aggregateKey | aggregateValue
  | listValue
  | message | messageItem | field | label | mapField | typeRef | fieldOptions | fieldOption
  | oneof | oneofItem | oneofField
  | reserved | extensions | tagRanges | tagRange | rangeEnd | fieldNames
  | enum | enumItem | enumValue | enumNumber
  | service | serviceItem | rpc | stream | rpcBody
  | extend | extendItem | fullIdent
  deriving DecidableEq, Repr, Inhabited

namespace Rule

def all : List Rule :=
  [file, statement, syntaxDecl, editionDecl, packageDecl, importDecl, importKind,
    optionDecl, empty, optionName, optionPart, extensionName,
    constant, number, strings, aggregate, aggregateEntry, aggregateKey, aggregateValue,
    listValue,
    message, messageItem, field, label, mapField, typeRef, fieldOptions, fieldOption,
    oneof, oneofItem, oneofField,
    reserved, extensions, tagRanges, tagRange, rangeEnd, fieldNames,
    enum, enumItem, enumValue, enumNumber,
    service, serviceItem, rpc, stream, rpcBody,
    extend, extendItem, fullIdent]

theorem mem_all (r : Rule) : r ∈ all := by cases r <;> decide

/-- The number of a rule: its place in `all`. -/
def index (r : Rule) : Nat := all.idxOf r

open Grammar (Expr)

private def tok (t : Terminal) : Expr := .terminal t.index
private def ref (r : Rule) : Expr := .rule r.index
private def seq (es : List Expr) : Expr := Expr.seqAll es
private def oneOf (es : List Expr) : Expr := Expr.altAll es
/-- Items with a mark between them, at least one. -/
private def separated (mark : Terminal) (item : Expr) : Expr :=
  seq [item, .many (seq [tok mark, item])]

/-- What each construct consists of. -/
def body : Rule → Expr
  | file => .many (ref statement)
  | statement => oneOf [ref syntaxDecl, ref editionDecl, ref packageDecl, ref importDecl,
      ref optionDecl, ref message, ref enum, ref service, ref extend, ref empty]
  | syntaxDecl => seq [tok .syntaxWord, tok .equal, tok .string, tok .semicolon]
  | editionDecl => seq [tok .editionWord, tok .equal, tok .string, tok .semicolon]
  | packageDecl => seq [tok .packageWord, ref fullIdent, tok .semicolon]
  | importDecl => seq [tok .importWord, .opt (ref importKind), tok .string, tok .semicolon]
  | importKind => oneOf [tok .weakWord, tok .publicWord]
  | optionDecl => seq [tok .optionWord, ref optionName, tok .equal, ref constant, tok .semicolon]
  | empty => tok .semicolon
  | optionName => separated .dot (ref optionPart)
  | optionPart => oneOf [tok .ident, seq [tok .parenOpen, ref extensionName, tok .parenClose]]
  | extensionName => seq [.opt (tok .dot), ref fullIdent]
  | constant => oneOf [ref number, ref strings, ref fullIdent, ref aggregate]
  | number => oneOf [
      seq [.opt (oneOf [tok .minus, tok .plus]), oneOf [tok .int, tok .float]],
      seq [oneOf [tok .minus, tok .plus], tok .ident]]
  | strings => .some (tok .string)
  | aggregate => seq [tok .braceOpen, .many (ref aggregateEntry), tok .braceClose]
  | aggregateEntry => seq [ref aggregateKey, .opt (tok .colon), ref aggregateValue,
      .opt (oneOf [tok .semicolon, tok .comma])]
  | aggregateKey => oneOf [tok .ident, seq [tok .bracketOpen, ref fullIdent, tok .bracketClose]]
  | aggregateValue => oneOf [ref constant, ref listValue]
  | listValue => seq [tok .bracketOpen, .opt (separated .comma (ref constant)), tok .bracketClose]
  | message => seq [tok .messageWord, tok .ident, tok .braceOpen, .many (ref messageItem),
      tok .braceClose]
  | messageItem => oneOf [ref field, ref mapField, ref oneof, ref message, ref enum, ref extend,
      ref optionDecl, ref reserved, ref extensions, ref empty]
  | field => seq [.opt (ref label), ref typeRef, tok .ident, tok .equal, tok .int,
      .opt (ref fieldOptions), tok .semicolon]
  | label => oneOf [tok .repeatedWord, tok .optionalWord, tok .requiredWord]
  | mapField => seq [tok .mapWord, tok .less, tok .ident, tok .comma, ref typeRef, tok .greater,
      tok .ident, tok .equal, tok .int, .opt (ref fieldOptions), tok .semicolon]
  | typeRef => oneOf [ref fullIdent, seq [tok .dot, ref fullIdent]]
  | fieldOptions => seq [tok .bracketOpen, separated .comma (ref fieldOption), tok .bracketClose]
  | fieldOption => seq [ref optionName, tok .equal, ref constant]
  | oneof => seq [tok .oneofWord, tok .ident, tok .braceOpen, .many (ref oneofItem),
      tok .braceClose]
  | oneofItem => oneOf [ref oneofField, ref optionDecl, ref empty]
  | oneofField => seq [ref typeRef, tok .ident, tok .equal, tok .int, .opt (ref fieldOptions),
      tok .semicolon]
  | reserved => seq [tok .reservedWord, oneOf [ref tagRanges, ref fieldNames], tok .semicolon]
  | extensions => seq [tok .extensionsWord, ref tagRanges, .opt (ref fieldOptions), tok .semicolon]
  | tagRanges => separated .comma (ref tagRange)
  | tagRange => seq [tok .int, .opt (seq [tok .toWord, ref rangeEnd])]
  | rangeEnd => oneOf [tok .int, tok .maxWord]
  | fieldNames => oneOf [separated .comma (tok .string), separated .comma (tok .ident)]
  | enum => seq [tok .enumWord, tok .ident, tok .braceOpen, .many (ref enumItem), tok .braceClose]
  | enumItem => oneOf [ref enumValue, ref optionDecl, ref reserved, ref empty]
  | enumValue => seq [tok .ident, tok .equal, ref enumNumber, .opt (ref fieldOptions),
      tok .semicolon]
  | enumNumber => seq [.opt (tok .minus), tok .int]
  | service => seq [tok .serviceWord, tok .ident, tok .braceOpen, .many (ref serviceItem),
      tok .braceClose]
  | serviceItem => oneOf [ref rpc, ref optionDecl, ref empty]
  | rpc => seq [tok .rpcWord, tok .ident, tok .parenOpen, .opt (ref stream), ref typeRef,
      tok .parenClose, tok .returnsWord, tok .parenOpen, .opt (ref stream), ref typeRef,
      tok .parenClose, ref rpcBody]
  | stream => tok .streamWord
  | rpcBody => oneOf [tok .semicolon,
      seq [tok .braceOpen, .many (oneOf [ref optionDecl, ref empty]), tok .braceClose]]
  | extend => seq [tok .extendWord, ref typeRef, tok .braceOpen, .many (ref extendItem),
      tok .braceClose]
  | extendItem => oneOf [ref field, ref empty]
  | fullIdent => separated .dot (tok .ident)

end Rule

/-- The grammar of the schema language. -/
def grammar : Grammar :=
  Grammar.ofRules Terminal.count Rule.file.index (Rule.all.map Rule.body)

/-- The productions of the grammar by number. -/
def productions : Array Grammar.Production := grammar.productions.toArray

/-- The automaton of the grammar. -/
def automaton : Std.TreeMap Nat Grammar.State := grammar.automaton

end ProtoBind.Source
