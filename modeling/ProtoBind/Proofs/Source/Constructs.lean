/-
The constructs of a file and the declarations that they make.

Every construct that declares something with a line has one declaration, in the
same order, at every depth (`Derives.agrees`): what the parts of a construct
declare is in it, because the grammar lets in only kinds that it takes
(`productions_fit`). The line of a declaration is that of the first token of its
construct, and the tokens are in the text where they say (`parse_tiled`).
-/
import Mathlib.Data.List.Forall2
import ProtoBind.Proofs.Source.Reading
import ProtoBind.Proofs.Source.Soundness
import ProtoBind.Proofs.Source.Trailing

namespace ProtoBind.Source

open Grammar (Production Symbol)

/-! ## Lines of declarations -/

mutual

/-- A declaration and those in it, the outer ones first, each by the construct that makes it and its line. Settings of a
file or of a message have no lines. -/
def Decl.lines : Decl → List (Rule × Nat)
  | .field f => [(.field, f.line)]
  | .map m => [(.mapField, m.line)]
  | .oneof o => (.oneof, o.line) :: o.fields.map fun f => (.oneofField, f.line)
  | .message _ items line => (.message, line) :: linesAll items
  | .enum e => (.enum, e.line) :: e.values.map fun v => (.enumValue, v.line)
  | .service s => (.service, s.line) :: s.rpcs.map fun r => (.rpc, r.line)
  | .extend e => (.extend, e.line) :: e.fields.map fun f => (.field, f.line)
  | .dialect _ | .edition _ | .package _ | .imports _ | .option _ _ => []

def linesAll : List Decl → List (Rule × Nat)
  | [] => []
  | d :: rest => d.lines ++ linesAll rest

end

theorem linesAll_eq (ds : List Decl) : linesAll ds = ds.flatMap Decl.lines := by
  induction ds with
  | nil => rfl
  | cons d ds ih => rw [linesAll, ih, List.flatMap_cons]

/-- The constructs whose declarations have lines. -/
def Rule.declares : Rule → Bool
  | .message | .field | .mapField | .oneof | .oneofField | .enum | .enumValue | .service | .rpc | .extend => true
  | _ => false

mutual

/-- The declaring constructs in a tree, the outer ones first, with their tokens. -/
def Tree.declaring : Tree → List (Rule × List Token)
  | .leaf _ => []
  | .node rule children =>
    if rule.declares then (rule, tokensAll children) :: declaringAll children else declaringAll children

def declaringAll : List Tree → List (Rule × List Token)
  | [] => []
  | t :: rest => t.declaring ++ declaringAll rest

end

theorem declaringAll_append (ts us : List Tree) : declaringAll (ts ++ us) = declaringAll ts ++ declaringAll us := by
  induction ts with
  | nil => rfl
  | cons t ts ih => rw [List.cons_append, declaringAll, declaringAll, ih, List.append_assoc]

/-- A declaration of a construct has the line of its first token. -/
def Begins (declared : Rule × Nat) (construct : Rule × List Token) : Prop :=
  declared.1 = construct.1 ∧ ∃ k rest, construct.2 = k :: rest ∧ declared.2 = k.line

mutual

theorem Tree.first?_eq : ∀ t : Tree, t.first? = t.tokens.head?
  | .leaf _ => rfl
  | .node _ children => firstToken?_eq children

theorem firstToken?_eq : ∀ ts : List Tree, firstToken? ts = (tokensAll ts).head?
  | [] => rfl
  | t :: ts => by
    rw [firstToken?, tokensAll, List.head?_append, t.first?_eq, firstToken?_eq ts]
    cases t.tokens.head? <;> rfl

end

theorem firstLine_eq {ts : List Tree} {k : Token} {rest : List Token} (h : tokensAll ts = k :: rest) :
    firstLine ts = k.line := by
  rw [firstLine, firstToken?_eq, h]
  rfl

/-! ## Kinds -/

/-- The kinds of declarations with lines. Fields are told apart from other members of a message since only they stand in
an extension. -/
inductive Kind
  | field | decl | member | value | rpc | file
  deriving DecidableEq

/-- The kinds of declarations that the parts of a construct can be. -/
def Rule.takes : Rule → List Kind
  | .file | .statement | .message | .messageItem => [.decl, .field]
  | .oneof | .oneofItem => [.member]
  | .enum | .enumItem => [.value]
  | .service | .serviceItem => [.rpc]
  | .extend | .extendItem => [.field]
  | _ => []

/-- The constructs that mean what their one part means. -/
def Rule.passes : Rule → Bool
  | .statement | .messageItem | .oneofItem | .enumItem | .serviceItem | .extendItem => true
  | _ => false

/-- The kinds of declarations that a construct can be. -/
def Rule.makes : Rule → List Kind
  | .file => [.file]
  | .message | .mapField | .oneof | .enum | .service | .extend => [.decl]
  | .field => [.field]
  | .oneofField => [.member]
  | .enumValue => [.value]
  | .rpc => [.rpc]
  | rule => if rule.passes then rule.takes else []

namespace Meaning

/-- The declarations in a meaning with their lines. -/
def lines : Meaning → List (Rule × Nat)
  | enumValue v => [(.enumValue, v.line)]
  | rpc r => [(.rpc, r.line)]
  | member f => [(.oneofField, f.line)]
  | decl d => d.lines
  | file ds => linesAll ds
  | _ => []

def kind? : Meaning → Option Kind
  | enumValue _ => some .value
  | rpc _ => some .rpc
  | member _ => some .member
  | decl (.field _) => some .field
  | decl (.map _) | decl (.oneof _) | decl (.message ..) | decl (.enum _) | decl (.service _)
  | decl (.extend _) => some .decl
  | file _ => some .file
  | _ => none

variable {parts : List Meaning} {kinds : List Kind}

/-- Declarations are of one of the kinds. -/
def Within (kinds : List Kind) (m : Meaning) : Prop := ∀ k, m.kind? = some k → k ∈ kinds

theorem within_of_none {m : Meaning} (h : m.kind? = none) : m.Within kinds := fun k hk => by
  rw [h] at hk
  cases hk

theorem lines_within_nil {m : Meaning} (h : m.Within []) : m.lines = [] := by
  cases m with
  | decl d => cases d <;> first | rfl | exact absurd (h _ rfl) List.not_mem_nil
  | enumValue | rpc | member | file => exact absurd (h _ rfl) List.not_mem_nil
  | _ => rfl

/-- What is read off the parts one by one has the lines of the parts. -/
theorem flatMap_lines {α : Type} {f : Meaning → Option α} {g : α → List (Rule × Nat)} (h : ∀ m ∈ parts, m.Within kinds)
    (hf : ∀ m : Meaning, m.Within kinds → m.lines = ((f m).map g).getD []) :
    parts.flatMap lines = (parts.filterMap f).flatMap g := by
  induction parts with
  | nil => rfl
  | cons m parts ih =>
    rw [List.forall_mem_cons] at h
    rw [List.flatMap_cons, List.filterMap_cons, hf m h.1, ih h.2]
    cases f m <;> rfl

theorem decls_lines (h : ∀ m ∈ parts, m.Within [.decl, .field]) :
    parts.flatMap lines = linesAll (parts.filterMap decl?) := by
  rw [linesAll_eq]
  refine flatMap_lines h fun m hm => ?_
  cases m with
  | enumValue | rpc | member | file => exact absurd (hm _ rfl) (by decide)
  | _ => rfl

theorem members_lines (h : ∀ m ∈ parts, m.Within [.member]) :
    parts.flatMap lines = (parts.filterMap member?).map fun f => (.oneofField, f.line) := by
  rw [List.map_eq_flatMap]
  refine flatMap_lines h fun m hm => ?_
  cases m with
  | enumValue | rpc | file => exact absurd (hm _ rfl) (by decide)
  | decl d => cases d <;> first | rfl | exact absurd (hm _ rfl) (by decide)
  | _ => rfl

theorem fields_lines (h : ∀ m ∈ parts, m.Within [.field]) :
    parts.flatMap lines = (parts.filterMap fieldDecl?).map fun f => (.field, f.line) := by
  rw [List.map_eq_flatMap]
  refine flatMap_lines h fun m hm => ?_
  cases m with
  | enumValue | rpc | member | file => exact absurd (hm _ rfl) (by decide)
  | decl d => cases d <;> first | rfl | exact absurd (hm _ rfl) (by decide)
  | _ => rfl

theorem values_lines (h : ∀ m ∈ parts, m.Within [.value]) : parts.flatMap lines =
    (parts.filterMap fun
      | enumValue v => some v
      | _ => none).map fun v => (.enumValue, v.line) := by
  rw [List.map_eq_flatMap]
  refine flatMap_lines h fun m hm => ?_
  cases m with
  | rpc | member | file => exact absurd (hm _ rfl) (by decide)
  | decl d => cases d <;> first | rfl | exact absurd (hm _ rfl) (by decide)
  | _ => rfl

theorem rpcs_lines (h : ∀ m ∈ parts, m.Within [.rpc]) : parts.flatMap lines =
    (parts.filterMap fun
      | rpc r => some r
      | _ => none).map fun r => (.rpc, r.line) := by
  rw [List.map_eq_flatMap]
  refine flatMap_lines h fun m hm => ?_
  cases m with
  | enumValue | member | file => exact absurd (hm _ rfl) (by decide)
  | decl d => cases d <;> first | rfl | exact absurd (hm _ rfl) (by decide)
  | _ => rfl

theorem no_lines (h : ∀ m ∈ parts, m.Within []) : parts.flatMap lines = [] :=
  List.flatMap_eq_nil_iff.mpr fun m hm => lines_within_nil (h m hm)

theorem inner_within (h : ∀ m ∈ parts, m.Within kinds) : (inner parts).Within kinds := by
  rw [inner_eq]
  cases hf : parts.find? isInner with
  | none => exact within_of_none rfl
  | some m => exact h m (List.mem_of_find?_eq_some hf)

/-- One part is passed on with its lines. -/
theorem inner_lines (part : Meaning) : (inner [part]).lines = [part].flatMap lines := by
  rw [List.flatMap_singleton]
  cases part <;> rfl

/-- **A construct has the declarations of its parts, behind its own.** -/
theorem ofParts_lines [CharacterNames] {rule : Rule} {line : Nat} {m : Meaning} (h : ∀ m ∈ parts, m.Within rule.takes)
    (hpasses : rule.passes = true → ∃ part, parts = [part]) (hm : ofParts rule line parts = .ok m) :
    m.lines = (if rule.declares then [(rule, line)] else []) ++ parts.flatMap lines ∧ m.Within rule.makes := by
  cases rule
  case file =>
    cases hm
    exact ⟨(decls_lines h).symm, fun _ hk => Option.some.inj hk ▸ List.mem_singleton_self _⟩
  case message =>
    cases hm
    exact ⟨congrArg (_ :: ·) (decls_lines h).symm, fun _ hk => Option.some.inj hk ▸ List.mem_singleton_self _⟩
  case oneof =>
    cases hm
    exact ⟨congrArg (_ :: ·) (members_lines h).symm, fun _ hk => Option.some.inj hk ▸ List.mem_singleton_self _⟩
  case enum =>
    cases hm
    exact ⟨congrArg (_ :: ·) (values_lines h).symm, fun _ hk => Option.some.inj hk ▸ List.mem_singleton_self _⟩
  case service =>
    cases hm
    exact ⟨congrArg (_ :: ·) (rpcs_lines h).symm, fun _ hk => Option.some.inj hk ▸ List.mem_singleton_self _⟩
  case extend =>
    cases hm
    exact ⟨congrArg (_ :: ·) (fields_lines h).symm, fun _ hk => Option.some.inj hk ▸ List.mem_singleton_self _⟩
  case enumValue | rpc =>
    cases hm
    exact ⟨congrArg (_ :: ·) (no_lines h).symm, fun _ hk => Option.some.inj hk ▸ List.mem_singleton_self _⟩
  case field | oneofField | mapField =>
    obtain ⟨tag, -, rfl⟩ := map_ok_iff.mp hm
    exact ⟨congrArg (_ :: ·) (no_lines h).symm, fun _ hk => Option.some.inj hk ▸ List.mem_singleton_self _⟩
  case statement | messageItem | oneofItem | enumItem | serviceItem | extendItem =>
    cases hm
    obtain ⟨part, rfl⟩ := hpasses rfl
    exact ⟨inner_lines part, inner_within h⟩
  case aggregateValue =>
    cases hm
    exact ⟨(lines_within_nil (inner_within h)).trans (no_lines h).symm, inner_within h⟩
  case constant =>
    have hinner := inner_within h
    simp only [ofParts] at hm
    split at hm <;> cases hm
    · exact ⟨(no_lines h).symm, within_of_none rfl⟩
    · exact ⟨(lines_within_nil hinner).trans (no_lines h).symm, hinner⟩
  case syntaxDecl | editionDecl | importDecl | strings =>
    obtain ⟨text, -, rfl⟩ := map_ok_iff.mp hm
    exact ⟨(no_lines h).symm, within_of_none rfl⟩
  case optionPart | aggregateKey | number | label | typeRef | enumNumber =>
    simp only [ofParts] at hm
    split at hm <;> cases hm <;> exact ⟨(no_lines h).symm, within_of_none rfl⟩
  all_goals
    cases hm
    exact ⟨(no_lines h).symm, within_of_none rfl⟩

end Meaning

/-! ## Kinds in the grammar -/

/-- The kinds of declarations that a construct can be, by its number. -/
def constructKinds : Symbol → List Kind
  | .terminal _ => []
  | .nonterminal n => (Rule.all[n]?).elim [] Rule.makes

/-- The kinds of declarations that a symbol can stand for; those of a helper are in its productions. -/
def symbolKinds : Symbol → List Kind
  | .terminal _ => []
  | .nonterminal n => match Rule.all[n]? with
    | some rule => rule.makes
    | none => (grammar.productions.filter (·.lhs == n)).flatMap fun p => p.rhs.flatMap constructKinds

/-- A symbol that stands for one tree. -/
def isPlain : Symbol → Bool
  | .terminal _ => true
  | .nonterminal n => (Rule.all[n]?).isSome

def isTerminal : Symbol → Bool
  | .terminal _ => true
  | .nonterminal _ => false

/-- A production has what its construct takes, one tree where that is passed on, and a token where a line is. -/
def fitsKinds (p : Production) : Bool :=
  let kinds := p.rhs.flatMap symbolKinds
  match Rule.all[p.lhs]? with
  | none => kinds.all (symbolKinds (.nonterminal p.lhs)).contains
  | some rule => kinds.all rule.takes.contains && (!rule.passes || p.rhs.length == 1 && p.rhs.all isPlain) &&
      (!rule.declares || p.rhs.any isTerminal)

theorem productions_fit : grammar.productions.all fitsKinds = true := by
  decide +kernel

/-- What is checked of the productions of a construct. -/
theorem Rule.fits {p : Production} (hp : p ∈ grammar.productions) {rule : Rule} (hrule : Rule.all[p.lhs]? = some rule) :
    (∀ x ∈ p.rhs, ∀ k ∈ symbolKinds x, k ∈ rule.takes) ∧
      (rule.passes = true → p.rhs.length = 1 ∧ p.rhs.all isPlain = true) ∧
      (rule.declares = true → p.rhs.any isTerminal = true) := by
  have hfits := List.all_eq_true.mp productions_fit p hp
  rw [fitsKinds, hrule] at hfits
  simp only [Bool.and_eq_true, Bool.or_eq_true, Bool.not_eq_true', beq_iff_eq] at hfits
  obtain ⟨⟨hkinds, hpasses⟩, hdeclares⟩ := hfits
  refine ⟨fun x hx k hk => ?_, fun h => hpasses.resolve_left (by rw [h]; nofun),
    fun h => hdeclares.resolve_left (by rw [h]; nofun)⟩
  exact List.contains_iff_mem.mp (List.all_eq_true.mp hkinds k (List.mem_flatMap.mpr ⟨x, hx, hk⟩))

/-- What is checked of the productions of a helper. -/
theorem helper_fits {p : Production} (hp : p ∈ grammar.productions) (hrule : Rule.all[p.lhs]? = none) :
    ∀ x ∈ p.rhs, ∀ k ∈ symbolKinds x, k ∈ symbolKinds (.nonterminal p.lhs) := by
  have hfits := List.all_eq_true.mp productions_fit p hp
  rw [fitsKinds, hrule] at hfits
  intro x hx k hk
  exact List.contains_iff_mem.mp (List.all_eq_true.mp hfits k (List.mem_flatMap.mpr ⟨x, hx, hk⟩))

/-! ## Derivations -/

/-- What the trees of some symbols mean: declarations of their kinds, which begin where the declaring constructs in the
trees do. A terminal is a token, and a plain symbol has one meaning. -/
structure Agrees (ss : List Symbol) (ts : List Tree) (ms : List Meaning) : Prop where
  kinds : ∀ m ∈ ms, m.Within (ss.flatMap symbolKinds)
  begins : List.Forall₂ Begins (ms.flatMap Meaning.lines) (declaringAll ts)
  tokens : ss.any isTerminal = true → tokensAll ts ≠ []
  plain : ss.all isPlain = true → ms.length = ss.length

namespace Agrees

variable {ss : List Symbol} {ts us : List Tree} {ms ps : List Meaning} {m : Meaning} {x : Symbol}

theorem nil : Agrees [] [] [] := ⟨List.forall_mem_nil _, .nil, nofun, fun _ => rfl⟩

theorem token {k : Token} (h : Agrees ss ts ms) :
    Agrees (.terminal k.terminal.index :: ss) (.leaf k :: ts) (.token k :: ms) where
  kinds := List.forall_mem_cons.mpr ⟨nofun, h.kinds⟩
  begins := h.begins
  tokens _ := List.cons_ne_nil k _
  plain hplain := congrArg (· + 1) (h.plain hplain)

/-- Trees of one nonterminal before others. -/
theorem append {n : Nat} (hkinds : ∀ m ∈ ps, m.Within (symbolKinds (.nonterminal n)))
    (hbegins : List.Forall₂ Begins (ps.flatMap Meaning.lines) (declaringAll us))
    (hplain : isPlain (.nonterminal n) = true → ps.length = 1) (h : Agrees ss ts ms) :
    Agrees (.nonterminal n :: ss) (us ++ ts) (ps ++ ms) where
  kinds := by
    rw [List.flatMap_cons]
    exact List.forall_mem_append.mpr ⟨fun m hm k hk => List.mem_append_left _ (hkinds m hm k hk),
      fun m hm k hk => List.mem_append_right _ (h.kinds m hm k hk)⟩
  begins := by
    rw [List.flatMap_append, declaringAll_append]
    exact List.rel_append hbegins h.begins
  tokens hany := by
    rw [tokensAll_append]
    exact List.append_ne_nil_of_right_ne_nil _ (h.tokens hany)
  plain hall := by
    rw [List.all_cons, Bool.and_eq_true] at hall
    rw [List.length_append, hplain hall.1, h.plain hall.2, List.length_cons, Nat.add_comm]

/-- The parts of a construct make its meaning. -/
theorem construct [CharacterNames] {p : Production} {rule : Rule} {children : List Tree} (hp : p ∈ grammar.productions)
    (hrule : Rule.all[p.lhs]? = some rule) (h : Agrees p.rhs children ps)
    (hm : Meaning.ofParts rule (firstLine children) ps = .ok m) :
    m.Within (symbolKinds (.nonterminal p.lhs)) ∧
      List.Forall₂ Begins m.lines (Tree.node rule children).declaring := by
  obtain ⟨htakes, hpasses, hdeclares⟩ := Rule.fits hp hrule
  have hkinds : ∀ m ∈ ps, m.Within rule.takes := fun m hm k hk => by
    obtain ⟨x, hx, hk⟩ := List.mem_flatMap.mp (h.kinds m hm k hk)
    exact htakes x hx k hk
  obtain ⟨hlines, hmakes⟩ := Meaning.ofParts_lines hkinds
    (fun hpass => List.length_eq_one_iff.mp ((h.plain (hpasses hpass).2).trans (hpasses hpass).1)) hm
  refine ⟨by rw [symbolKinds, hrule]; exact hmakes, ?_⟩
  rw [hlines, Tree.declaring]
  cases hd : rule.declares with
  | false => exact h.begins
  | true =>
    obtain ⟨k, rest, htokens⟩ := List.exists_cons_of_ne_nil (h.tokens (hdeclares hd))
    exact .cons ⟨rfl, k, rest, htokens, firstLine_eq htokens⟩ h.begins

end Agrees

/-- **What a derivation means begins where its constructs do.** -/
theorem Derives.agrees [CharacterNames] {ss : List Symbol} {bare : List Tree} (h : Derives grammar tables ss bare) :
    ∀ {ts : List Tree}, bareTrees ts = bare → ∀ {ms : List Meaning}, meaningAll ts = .ok ms → Agrees ss ts ms := by
  induction h with
  | nil =>
    intro ts hts ms hms
    rw [bareTrees_eq, List.map_eq_nil_iff] at hts
    subst hts
    cases hms
    exact .nil
  | terminal t text rest ih =>
    intro ts hts ms hms
    rw [bareTrees_eq] at hts
    obtain ⟨t', ts', rfl, ht', hts'⟩ := List.map_eq_cons_iff.mp hts
    cases t' with
    | node => cases ht'
    | leaf k =>
      obtain rfl : k.terminal = t := congrArg Token.terminal (Tree.leaf.inj ht')
      obtain ⟨ms', hms', rfl⟩ := map_ok_iff.mp hms
      exact .token (ih (bareTrees_eq ts' ▸ hts') hms')
  | @nonterminal p ss us bare hp parts rest ihparts ihrest =>
    intro ts hts ms hms
    rw [bareTrees_eq] at hts
    obtain ⟨ts, ts', rfl, hts, hts'⟩ := List.map_eq_append_iff.mp hts
    rw [meaningAll_append] at hms
    obtain ⟨ps, hps, hms⟩ := bind_ok_iff.mp hms
    obtain ⟨ms', hms', rfl⟩ := map_ok_iff.mp hms
    have hrest := ihrest (bareTrees_eq ts' ▸ hts') hms'
    rw [Machine.reduced, tables_rules, List.getElem?_toArray] at hts
    cases hrule : Rule.all[p.lhs]? with
    | none =>
      rw [hrule] at hts
      have hparts := ihparts (bareTrees_eq ts ▸ hts) hps
      refine hrest.append (fun m hm k hk => ?_) hparts.begins fun hplain => ?_
      · obtain ⟨x, hx, hk⟩ := List.mem_flatMap.mp (hparts.kinds m hm k hk)
        exact helper_fits hp hrule x hx k hk
      · rw [isPlain, hrule] at hplain
        cases hplain
    | some rule =>
      rw [hrule] at hts
      obtain ⟨t, rfl, ht⟩ := List.map_eq_singleton_iff.mp hts
      cases t with
      | leaf => cases ht
      | node rule' children =>
        obtain ⟨rfl, hchildren⟩ := Tree.node.inj ht
        obtain ⟨m, hm, hps⟩ := bind_ok_iff.mp hps
        cases hps
        obtain ⟨qs, hqs, hm⟩ := bind_ok_iff.mp hm
        obtain ⟨hkinds, hbegins⟩ := (ihparts hchildren hqs).construct hp hrule hm
        refine hrest.append (List.forall_mem_singleton.mpr hkinds) ?_ fun _ => rfl
        rw [List.flatMap_singleton, declaringAll, declaringAll, List.append_nil]
        exact hbegins

/-! ## Parsed texts -/

/-- A file has the lines of its declarations. -/
theorem file_lines {ms : List Meaning} (h : ∀ m ∈ ms, m.Within ([.nonterminal Rule.file.index].flatMap symbolKinds)) :
    linesAll (ms.flatMap Meaning.decls) = ms.flatMap Meaning.lines := by
  rw [List.flatMap_singleton, symbolKinds, Rule.all_index] at h
  rw [linesAll_eq, List.flatMap_assoc]
  refine List.flatMap_congr fun m hm => ?_
  cases m with
  | file ds => exact (linesAll_eq ds).symm
  | enumValue | rpc | member => exact absurd (h _ hm _ rfl) (by decide)
  | decl d => cases d <;> first | rfl | exact absurd (h _ hm _ rfl) (by decide)
  | _ => rfl

/-- The declarations of a parsed text begin at the first tokens of their constructs. -/
theorem parse_begins [CharacterNames] {text : String} {decls : List Decl} {comments : List Comment}
    (h : parse text = .ok (decls, comments)) : ∃ forest, parseTree text.toList = .ok (forest, comments) ∧
      List.Forall₂ Begins (linesAll decls) (declaringAll forest) := by
  rw [parse_eq] at h
  obtain ⟨forest, passed, htree⟩ := declarations_eq_ok h
  rw [htree, declarations_ok] at h
  cases hm : meaningAll forest with
  | error fault =>
    rw [hm] at h
    cases h
  | ok meanings =>
    rw [hm] at h
    obtain ⟨rfl, rfl⟩ := Prod.mk.inj (Except.ok.inj h)
    have hagrees := (parseTree_derives htree).agrees rfl hm
    rw [file_lines hagrees.kinds]
    exact ⟨forest, htree, hagrees.begins⟩

/-- **A parsed text is cut into pieces, and its declarations begin at their first tokens.** -/
theorem parse_tiled [CharacterNames] {text : String} {decls : List Decl} {comments : List Comment}
    (h : parse text = .ok (decls, comments)) : ∃ forest, parseTree text.toList = .ok (forest, comments) ∧
      textOfPieces (lexed text.toList) = text.toList ∧
      (∀ before p after, lexed text.toList = before ++ p :: after → p.Placed (textOfPieces before)) ∧
      tokensAll forest = (lexed text.toList).filterMap Piece.token? ∧
      comments = (lexed text.toList).filterMap Piece.comment? ∧
      List.Forall₂ Begins (linesAll decls) (declaringAll forest) := by
  obtain ⟨forest, htree, hbegins⟩ := parse_begins h
  obtain ⟨htext, hplaced, htokens, hcomments⟩ := parseTree_tiled htree
  exact ⟨forest, htree, htext, hplaced, htokens, hcomments, hbegins⟩

/-- The comments of the text of two pages are cut off it in order. -/
theorem parse_tiled_paged : ∃ decls forest, parse paged = .ok (decls, [commentA, commentB]) ∧
    parseTree paged.toList = .ok (forest, [commentA, commentB]) ∧
    textOfPieces (lexed paged.toList) = paged.toList ∧
    (lexed paged.toList).filterMap Piece.comment? = [commentA, commentB] ∧
    List.Forall₂ Begins (linesAll decls) (declaringAll forest) := by
  obtain ⟨decls, hparse⟩ := paged_parsed
  obtain ⟨forest, htree, htext, -, -, hcomments, hbegins⟩ := parse_tiled hparse
  exact ⟨decls, forest, hparse, htree, htext, hcomments.symm, hbegins⟩

end ProtoBind.Source
