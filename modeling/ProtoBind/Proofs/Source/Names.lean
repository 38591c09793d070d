/-
Names in parsed files.

The lexer finds identifiers of letters, digits and underscores
(`Token.Matched.word`), the parser passes tokens on as it found them
(`Machine.run_matched`), and a declaration takes its name from an identifier.
So declared names are words, without dots in particular, and the fields of a
oneof group have no label (`parse_proper`).
-/
import ProtoBind.Proofs.Results
import ProtoBind.Proofs.Source.Matching
import ProtoBind.Source.Decl

namespace ProtoBind.Source

/-- A name without dots. -/
def Plain (s : String) : Prop := '.' ∉ s.toList

theorem Plain.empty : Plain "" := by simp [Plain]

/-- A name of letters, digits and underscores. -/
def Word (s : String) : Prop := ∀ c ∈ s.toList, Terminal.isIdentRest c = true

theorem Word.empty : Word "" := by simp [Word]

theorem Word.plain {s : String} (h : Word s) : Plain s := fun hdot => absurd (h _ hdot) (by decide)

/-- A token that is no identifier, or one that is a word. -/
def Token.Word (t : Token) : Prop := t.terminal = .ident → Source.Word t.text

/-! ## Lexing -/

theorem Terminal.mem_take_spanLength {p : Char → Bool} {x : Char} :
    ∀ {s : List Char}, x ∈ s.take (spanLength p s) → p x = true
  | [], h => by simp at h
  | c :: rest, h => by
    simp only [spanLength] at h
    split at h
    next hp =>
      rcases List.mem_cons.mp h with rfl | h
      · exact hp
      · exact mem_take_spanLength h
    next => simp at h

theorem Terminal.isIdentRest_of_start {c : Char} (h : isIdentStart c = true) : isIdentRest c = true := by
  rw [isIdentStart, Bool.or_eq_true] at h
  rw [isIdentRest, Char.isAlphanum, Bool.or_eq_true, Bool.or_eq_true]
  tauto

theorem Terminal.identLength_word {s : List Char} {n : Nat} (h : identLength s = some n) :
    ∀ c ∈ s.take n, isIdentRest c = true := by
  match s with
  | [] => simp
  | c :: rest =>
    simp only [identLength] at h
    split at h
    next hc =>
      obtain rfl : 1 + spanLength isIdentRest rest = n := Option.some.inj h
      rw [Nat.add_comm, List.take_succ_cons]
      intro x hx
      rcases List.mem_cons.mp hx with rfl | hx
      · exact isIdentRest_of_start hc
      · exact mem_take_spanLength hx
    next => simp at h

/-- The text of the token is what its terminal matches of a text, unless the terminal is a word. -/
def Token.Matched (t : Token) : Prop :=
  t.terminal.word? = none → ∃ s n, t.terminal.matchLength s = some n ∧ t.text = String.ofList (s.take n)

theorem Token.Matched.word {t : Token} (h : t.Matched) : t.Word := by
  intro hident
  obtain ⟨s, n, hn, htext⟩ := h (by rw [hident]; rfl)
  rw [hident] at hn
  rw [Source.Word, htext, String.toList_ofList]
  exact Terminal.identLength_word hn

theorem Cursor.next_matched {expected : Nat} {c after : Cursor} {passed comments : List Comment}
    {t : Token} (h : c.next expected passed = (.token t after, comments)) : t.Matched := by
  fun_induction Cursor.next expected c passed with
  | case1 => simp at h
  | case2 => simp at h
  | case3 c passed _ k n hs _ after _ ih => exact ih h
  | case4 c passed _ k n hs _ after text _ _ ih => exact ih h
  | case5 c passed _ k n hs _ after text _ _ =>
    simp only [Prod.mk.injEq, Lexed.token.injEq] at h
    obtain ⟨⟨rfl, -⟩, -⟩ := h
    exact fun hword => ⟨c.rest, n, matchLength_of_scan hs hword, rfl⟩
  | case6 => simp at h

/-! ## Parsing -/

theorem tokensAll_append : ∀ {ts us : List Tree}, tokensAll (ts ++ us) = tokensAll ts ++ tokensAll us
  | [], _ => rfl
  | t :: ts, us => by simp [tokensAll, @tokensAll_append ts]

theorem mem_tokensAll_flatMap {t : Token} : ∀ {frames : List Frame},
    t ∈ tokensAll (frames.flatMap Frame.forest) ↔ ∃ f ∈ frames, t ∈ tokensAll f.forest
  | [] => by simp [tokensAll]
  | f :: frames => by simp [tokensAll_append, @mem_tokensAll_flatMap _ frames]

namespace Machine

/-- The tokens that the machine holds, on its stack or waiting. -/
structure MatchedTokens (m : Machine) : Prop where
  stack : ∀ f ∈ m.stack, ∀ t ∈ tokensAll f.forest, t.Matched
  held : ∀ t, m.held = .token t → t.Matched

theorem mem_tokensAll_reduced {tables : Tables} {lhs : Nat} {forest : List Tree} {t : Token}
    (h : t ∈ tokensAll (reduced tables lhs forest)) : t ∈ tokensAll forest := by
  unfold reduced at h
  split at h
  · simpa [tokensAll, Tree.tokens] using h
  · exact h

/-- What a step leaves: a machine with tokens as they were matched, or a forest of such tokens. -/
def Step.MatchedTokens : Step → Prop
  | .next m => m.MatchedTokens
  | .done forest _ => ∀ t ∈ tokensAll forest, t.Matched
  | .failed _ => True

theorem find_matched {state : Grammar.State} {m : Machine} (h : m.MatchedTokens) :
    Step.MatchedTokens (find state m) := by
  unfold find
  split
  next t after comments hn =>
    refine ⟨h.stack, fun u hu => ?_⟩
    obtain rfl : t = u := by simpa using hu
    exact Cursor.next_matched hn
  next => exact ⟨h.stack, fun u hu => by simp at hu⟩
  next => trivial

theorem act_matched {tables : Tables} {state : Grammar.State} {m : Machine} {terminal : Nat}
    {leaf : List Tree} (h : m.MatchedTokens) (hl : ∀ t ∈ tokensAll leaf, t.Matched) :
    Step.MatchedTokens (act tables state m terminal leaf) := by
  unfold act
  split
  next =>
    refine ⟨fun f hf => ?_, fun u hu => by simp at hu⟩
    rcases List.mem_cons.mp hf with rfl | hf
    · exact hl
    · exact h.stack f hf
  next =>
    split
    next => trivial
    next production _ =>
      dsimp only
      split
      next => trivial
      next =>
        refine ⟨fun f hf => ?_, h.held⟩
        rcases List.mem_cons.mp hf with rfl | hf
        · intro t ht
          obtain ⟨f, hf, ht⟩ := mem_tokensAll_flatMap.mp (mem_tokensAll_reduced ht)
          exact h.stack f (List.mem_of_mem_take (List.mem_reverse.mp hf)) t ht
        · exact h.stack f (List.mem_of_mem_drop hf)
  next =>
    intro t ht
    obtain ⟨f, hf, ht⟩ := mem_tokensAll_flatMap.mp ht
    exact h.stack f (List.mem_reverse.mp hf) t ht
  next => trivial

theorem step_matched {tables : Tables} {m : Machine} (h : m.MatchedTokens) :
    Step.MatchedTokens (step tables m) := by
  unfold step
  split
  next => trivial
  next =>
    split
    next => exact find_matched h
    next t ht =>
      refine act_matched h fun u hu => ?_
      obtain rfl : u = t := by simpa [tokensAll, Tree.tokens] using hu
      exact h.held u ht
    next => exact act_matched h (by simp [tokensAll])

/-- Every token of a finished parse is as it was matched. -/
theorem run_matched {tables : Tables} {forest : List Tree} {comments : List Comment} :
    ∀ {fuel : Nat} {m : Machine}, m.MatchedTokens → run tables fuel m = .ok (forest, comments) →
      ∀ t ∈ tokensAll forest, t.Matched
  | 0, _, _, hr => by simp [run] at hr
  | fuel + 1, m, h, hr => by
    have hs := @step_matched tables m h
    simp only [run] at hr
    split at hr
    next m' he => rw [he] at hs; exact run_matched hs hr
    next forest' comments' he =>
      simp only [Except.ok.injEq, Prod.mk.injEq] at hr
      obtain ⟨rfl, rfl⟩ := hr
      rw [he] at hs
      exact hs
    next => simp at hr

end Machine

theorem parseTree_matched {text : List Char} {forest : List Tree} {comments : List Comment}
    (h : parseTree text = .ok (forest, comments)) : ∀ t ∈ tokensAll forest, t.Matched :=
  Machine.run_matched ⟨by simp [Machine.start], by simp [Machine.start]⟩ h

/-! ## Declarations -/

/-- A field of a oneof group: its name is a word and it has no label. -/
structure FieldDecl.Member (f : FieldDecl) : Prop where
  name : Word f.name
  label : f.label = none

mutual

/-- Every declared name is a word, and the fields of oneof groups have no label. -/
def Decl.Proper : Decl → Prop
  | .field f => Word f.name
  | .map m => Word m.name
  | .oneof o => ∀ f ∈ o.fields, f.Member
  | .message name items _ => Word name ∧ ProperAll items
  | .enum e => Word e.name
  | .service s => Word s.name ∧ ∀ r ∈ s.rpcs, Word r.name
  | .extend e => ∀ f ∈ e.fields, Word f.name
  | .dialect _ | .edition _ | .package _ | .imports _ | .option _ _ => True

def ProperAll : List Decl → Prop
  | [] => True
  | d :: rest => d.Proper ∧ ProperAll rest

end

theorem properAll_iff : ∀ {ds : List Decl}, ProperAll ds ↔ ∀ d ∈ ds, d.Proper
  | [] => by simp [ProperAll]
  | d :: ds => by simp [ProperAll, @properAll_iff ds]

namespace Meaning

/-- The names in a meaning are words. -/
def Proper : Meaning → Prop
  | token t => t.Word
  | member f => f.Member
  | rpc r => Word r.name
  | decl d => d.Proper
  | file ds => ProperAll ds
  | _ => True

variable {parts : List Meaning}

theorem mem_text?_word (h : ∀ m ∈ parts, m.Proper) :
    ∀ s ∈ parts.filterMap (text? .ident), Word s := by
  intro s hs
  obtain ⟨m, hm, hs⟩ := List.mem_filterMap.mp hs
  cases m with
  | token t =>
    simp only [text?, Option.ite_none_right_eq_some, Option.some.injEq] at hs
    obtain ⟨ht, rfl⟩ := hs
    exact h _ hm ht
  | _ => simp [text?] at hs

theorem firstText_word (h : ∀ m ∈ parts, m.Proper) : Word (firstText .ident parts) := by
  rw [firstText, ← List.head?_filterMap]
  cases hs : (parts.filterMap (text? .ident)).head? with
  | none => exact Word.empty
  | some s => exact mem_text?_word h s (List.mem_of_head? hs)

theorem headD_word {names : List String} (h : ∀ s ∈ names, Word s) : Word (names.headD "") := by
  cases names with
  | nil => exact Word.empty
  | cons s rest => exact h s (by simp)

theorem filterMap_decl?_proper (h : ∀ m ∈ parts, m.Proper) : ProperAll (parts.filterMap decl?) := by
  refine properAll_iff.mpr fun d hd => ?_
  obtain ⟨m, hm, hd⟩ := List.mem_filterMap.mp hd
  cases m with
  | decl d' =>
    obtain rfl : d' = d := by simpa [decl?] using hd
    exact h _ hm
  | _ => simp [decl?] at hd

theorem fieldDecl?_word (h : ∀ m ∈ parts, m.Proper) :
    ∀ f ∈ parts.filterMap fieldDecl?, Word f.name := by
  intro f hf
  obtain ⟨m, hm, hf⟩ := List.mem_filterMap.mp hf
  unfold fieldDecl? at hf
  split at hf
  next f' =>
    obtain rfl : f' = f := Option.some.inj hf
    exact h _ hm
  next => simp at hf

theorem member?_proper (h : ∀ m ∈ parts, m.Proper) : ∀ f ∈ parts.filterMap member?, f.Member := by
  intro f hf
  obtain ⟨m, hm, hf⟩ := List.mem_filterMap.mp hf
  cases m with
  | member f' =>
    obtain rfl : f' = f := by simpa [member?] using hf
    exact h _ hm
  | _ => simp [member?] at hf

theorem rpcs_word (h : ∀ m ∈ parts, m.Proper) : ∀ r ∈ parts.filterMap (fun
      | rpc r => some r
      | _ => none), Word r.name := by
  intro r hr
  obtain ⟨m, hm, hr⟩ := List.mem_filterMap.mp hr
  split at hr
  next r' =>
    obtain rfl : r' = r := Option.some.inj hr
    exact h _ hm
  next => simp at hr

theorem inner_proper (h : ∀ m ∈ parts, m.Proper) : (inner parts).Proper := by
  unfold inner
  cases hf : parts.find? _ with
  | none => trivial
  | some m => exact h m (List.mem_of_find?_eq_some hf)

/-- The meaning of a construct is proper when the meanings of its parts are. -/
theorem ofParts_proper [CharacterNames] {rule : Rule} {line : Nat} {m : Meaning} (h : ∀ m ∈ parts, m.Proper)
    (hm : ofParts rule line parts = .ok m) : m.Proper := by
  cases rule
  case file =>
    cases hm
    exact filterMap_decl?_proper h
  case message =>
    cases hm
    exact ⟨firstText_word h, filterMap_decl?_proper h⟩
  case field =>
    obtain ⟨tag, -, rfl⟩ := map_ok_iff.mp hm
    exact firstText_word h
  case oneofField =>
    obtain ⟨tag, -, rfl⟩ := map_ok_iff.mp hm
    exact ⟨firstText_word h, rfl⟩
  case mapField =>
    obtain ⟨tag, -, rfl⟩ := map_ok_iff.mp hm
    exact headD_word fun s hs => mem_text?_word h s (List.mem_of_mem_drop hs)
  case oneof =>
    cases hm
    exact member?_proper h
  case enum =>
    cases hm
    exact firstText_word h
  case service =>
    cases hm
    exact ⟨firstText_word h, rpcs_word h⟩
  case rpc =>
    cases hm
    exact firstText_word h
  case extend =>
    cases hm
    exact fieldDecl?_word h
  case statement | messageItem | oneofItem | enumItem | serviceItem | extendItem | aggregateValue =>
    cases hm
    exact inner_proper h
  case constant =>
    have hi := inner_proper h
    simp only [ofParts] at hm
    split at hm <;> cases hm
    · trivial
    · exact hi
  case syntaxDecl | editionDecl | importDecl | strings =>
    obtain ⟨text, -, rfl⟩ := map_ok_iff.mp hm
    trivial
  case optionPart | aggregateKey | number | label | typeRef | enumNumber =>
    simp only [ofParts] at hm
    split at hm <;> cases hm <;> trivial
  all_goals
    cases hm
    trivial

end Meaning

section Meanings

/-- What holds of a construct when it holds of its parts. -/
def Meaning.Inherits [CharacterNames] (P : Meaning → Prop) : Prop :=
  ∀ {rule : Rule} {line : Nat} {parts : List Meaning} {m : Meaning}, (∀ p ∈ parts, P p) →
    ofParts rule line parts = .ok m → P m

variable {T : Token → Prop} {P : Meaning → Prop}

mutual

/-- What holds of tokens, and of a construct when it holds of its parts, holds of every meaning. -/
theorem Tree.meaning_induct [CharacterNames] (hleaf : ∀ t, T t → P (.token t)) (hnode : Meaning.Inherits P) :
    ∀ {t : Tree} {m : Meaning}, (∀ k ∈ t.tokens, T k) → t.meaning = .ok m → P m
  | .leaf t, m, h, hm => by
    cases hm
    exact hleaf t (h t (by simp [Tree.tokens]))
  | .node rule children, m, h, hm => by
    obtain ⟨parts, hp, hm⟩ := bind_ok_iff.mp hm
    exact hnode (meaningAll_induct hleaf hnode h hp) hm

theorem meaningAll_induct [CharacterNames] (hleaf : ∀ t, T t → P (.token t)) (hnode : Meaning.Inherits P) :
    ∀ {ts : List Tree} {ms : List Meaning}, (∀ k ∈ tokensAll ts, T k) → meaningAll ts = .ok ms → ∀ m ∈ ms, P m
  | [], ms, _, hm => by
    cases hm
    simp
  | t :: rest, ms, h, hm => by
    simp only [tokensAll, List.mem_append] at h
    obtain ⟨m, ht, hm⟩ := bind_ok_iff.mp hm
    obtain ⟨ms, hr, rfl⟩ := map_ok_iff.mp hm
    intro m' hm'
    rcases List.mem_cons.mp hm' with rfl | hm'
    · exact Tree.meaning_induct hleaf hnode (fun k hk => h k (.inl hk)) ht
    · exact meaningAll_induct hleaf hnode (fun k hk => h k (.inr hk)) hr m' hm'

end

theorem declarations_induct [CharacterNames] (hleaf : ∀ t, T t → P (.token t)) (hnode : Meaning.Inherits P)
    {result : Except SyntaxFault (List Tree × List Comment)} {decls : List Decl} {comments : List Comment}
    (hp : ∀ forest passed, result = .ok (forest, passed) → ∀ t ∈ tokensAll forest, T t)
    (h : declarations result = .ok (decls, comments)) : ∀ d ∈ decls, ∃ ds, d ∈ ds ∧ P (.file ds) := by
  unfold declarations at h
  split at h
  next => cases h
  next forest passed =>
    split at h
    next => cases h
    next meanings hm =>
      simp only [Except.ok.injEq, Prod.mk.injEq] at h
      obtain ⟨rfl, rfl⟩ := h
      intro d hd
      obtain ⟨m, hmem, hd⟩ := List.mem_flatMap.mp hd
      have hmeaning := meaningAll_induct hleaf hnode (hp forest passed rfl) hm m hmem
      split at hd
      next ds => exact ⟨ds, hd, hmeaning⟩
      next => simp at hd

end Meanings

/-- **Declared names are words**, and the fields of oneof groups have no labels. -/
theorem parse_proper [CharacterNames] {text : String} {decls : List Decl} {comments : List Comment}
    (h : parse text = .ok (decls, comments)) : ProperAll decls := by
  refine properAll_iff.mpr fun d hd => ?_
  obtain ⟨ds, hmem, hproper⟩ := declarations_induct (fun t => Token.Matched.word) Meaning.ofParts_proper
    (fun _ _ ht => parseTree_matched ht) h d hd
  exact properAll_iff.mp hproper d hmem

end ProtoBind.Source
