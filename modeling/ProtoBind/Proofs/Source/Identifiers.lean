/-
Declared names are identifiers.

The tree of a construct is derived by one of its productions, so the tokens of
its names are there (`Derives.identified`): no declared name is empty, at any
depth, and each begins with a letter or an underscore. The parts of a package
name are separated by dots (`parse_identified`).
-/
import Mathlib.Data.Nat.Basic
import Mathlib.Order.Basic
import ProtoBind.Proofs.Source.Reading
import ProtoBind.Proofs.Source.Soundness

namespace ProtoBind.Source

open Grammar (Production Symbol)

/-! ## Identifiers -/

/-- A letter or an underscore, then letters, digits and underscores. -/
def Identifier (s : String) : Prop := isIdentText s.toList = true

/-- Letters, digits, underscores and dots. -/
def Dotted (s : String) : Prop := ∀ c ∈ s.toList, c = '.' ∨ Terminal.isIdentRest c = true

/-- The first character of an identifier, and what may stand behind it. -/
theorem Identifier.chars {s : String} (h : Identifier s) : ∃ c rest, s.toList = c :: rest ∧
    Terminal.isIdentStart c = true ∧ ∀ x ∈ c :: rest, Terminal.isIdentRest x = true := by
  rw [Identifier] at h
  cases hs : s.toList with
  | nil =>
    rw [hs] at h
    cases h
  | cons c rest =>
    rw [hs, isIdentText, Bool.and_eq_true] at h
    exact ⟨c, rest, rfl, h.1, List.forall_mem_cons.mpr ⟨Terminal.isIdentRest_of_start h.1, List.all_eq_true.mp h.2⟩⟩

theorem Identifier.word {s : String} (h : Identifier s) : Word s := by
  obtain ⟨c, rest, hs, -, hall⟩ := h.chars
  rwa [Word, hs]

theorem Word.dotted {s : String} (h : Word s) : Dotted s := fun c hc => .inr (h c hc)

theorem Dotted.append {a b : String} (ha : Dotted a) (hb : Dotted b) : Dotted (a ++ b) := by
  rw [Dotted, String.toList_append]
  exact List.forall_mem_append.mpr ⟨ha, hb⟩

theorem Dotted.join : ∀ {parts : List String}, (∀ part ∈ parts, Dotted part) → Dotted (Text.join "." parts)
  | [], _ => by simp [Text.join, Dotted]
  | [part], h => by simpa [Text.join] using h
  | part :: next :: rest, h => by
    rw [List.forall_mem_cons] at h
    have hjoin : Text.join "." (part :: next :: rest) = part ++ "." ++ Text.join "." (next :: rest) := by
      simp only [Text.join, String.intercalate_cons_of_ne_nil (List.cons_ne_nil next rest), String.append_assoc]
    rw [hjoin]
    exact (h.1.append (by simp [Dotted])).append (Dotted.join h.2)

theorem Token.Matched.identifier {t : Token} (h : t.Matched) (hident : t.terminal = .ident) : Identifier t.text := by
  obtain ⟨s, n, hn, htext⟩ := h (by rw [hident]; rfl)
  have hword := h.word hident
  rw [Source.Word, htext, String.toList_ofList] at hword
  rw [Identifier, htext, String.toList_ofList]
  rw [hident] at hn
  cases s with
  | nil => cases hn
  | cons c rest =>
    obtain ⟨hc, hlength⟩ := Option.ite_none_right_eq_some.mp (show (if Terminal.isIdentStart c then _ else _) = _ from hn)
    obtain ⟨n, rfl⟩ : ∃ k, n = k + 1 := ⟨_, (Option.some.inj hlength).symm.trans (Nat.add_comm _ _)⟩
    rw [List.take_succ_cons] at hword ⊢
    rw [isIdentText, hc, Bool.true_and]
    exact List.all_eq_true.mpr fun x hx => hword x (List.mem_cons_of_mem _ hx)

/-! ## Declarations -/

mutual

/-- All names in a declaration are identifiers, and a package has a dotted one. -/
def Decl.Identified : Decl → Prop
  | .package name => Dotted name
  | .field f => Identifier f.name
  | .map m => Identifier m.name
  | .oneof o => Identifier o.name ∧ ∀ f ∈ o.fields, Identifier f.name
  | .message name items _ => Identifier name ∧ IdentifiedAll items
  | .enum e => Identifier e.name ∧ ∀ v ∈ e.values, Identifier v.name
  | .service s => Identifier s.name ∧ ∀ r ∈ s.rpcs, Identifier r.name
  | .extend e => ∀ f ∈ e.fields, Identifier f.name
  | .dialect _ | .edition _ | .imports _ | .option _ _ => True

def IdentifiedAll : List Decl → Prop
  | [] => True
  | d :: rest => d.Identified ∧ IdentifiedAll rest

end

theorem identifiedAll_iff {ds : List Decl} : IdentifiedAll ds ↔ ∀ d ∈ ds, d.Identified := by
  induction ds with
  | nil => simp [IdentifiedAll]
  | cons d ds ih => simp [IdentifiedAll, ih]

mutual

theorem Decl.bare_identified : ∀ {d : Decl}, d.bare.Identified ↔ d.Identified
  | .message _ _ _ => and_congr_right fun _ => bareDecls_identified
  | .oneof _ | .enum _ | .service _ => and_congr_right fun _ => List.forall_mem_map
  | .extend _ => List.forall_mem_map
  | .dialect _ | .edition _ | .package _ | .imports _ | .option _ _ | .field _ | .map _ => .rfl

theorem bareDecls_identified {ds : List Decl} : IdentifiedAll (bareDecls ds) ↔ IdentifiedAll ds := by
  cases ds with
  | nil => exact .rfl
  | cons d ds => exact and_congr Decl.bare_identified bareDecls_identified

end

namespace Meaning

/-- The names in a meaning are identifiers, and a token is as it was matched. -/
def Identified : Meaning → Prop
  | token t => t.Matched
  | enumValue v => Identifier v.name
  | rpc r => Identifier r.name
  | member f => Identifier f.name
  | decl d => d.Identified
  | file ds => IdentifiedAll ds
  | _ => True

theorem bare_identified {m : Meaning} : m.bare.Identified ↔ m.Identified := by
  cases m with
  | decl d => exact Decl.bare_identified
  | file ds =>
    show IdentifiedAll (ds.map Decl.bare) ↔ _
    rw [← bareDecls_eq]
    exact bareDecls_identified
  | _ => exact .rfl

variable {parts : List Meaning}

/-- The texts of the identifiers among the parts. -/
def identTexts (parts : List Meaning) : List String := parts.filterMap (text? .ident)

theorem identTexts_identifier (h : ∀ m ∈ parts, m.Identified) : ∀ s ∈ identTexts parts, Identifier s := by
  intro s hs
  obtain ⟨m, hm, hs⟩ := List.mem_filterMap.mp hs
  cases m with
  | token t =>
    simp only [text?, Option.ite_none_right_eq_some, Option.some.injEq] at hs
    obtain ⟨ht, rfl⟩ := hs
    exact Token.Matched.identifier (h _ hm) ht
  | _ => simp [text?] at hs

theorem firstText_identifier (h : ∀ m ∈ parts, m.Identified) (hlength : 1 ≤ (identTexts parts).length) :
    Identifier (firstText .ident parts) := by
  rw [firstText, ← List.head?_filterMap]
  cases hs : (parts.filterMap (text? .ident)).head? with
  | none =>
    rw [List.head?_eq_none_iff] at hs
    rw [identTexts, hs] at hlength
    cases hlength
  | some s => exact identTexts_identifier h s (List.mem_of_head? hs)

/-- What is read off the parts one by one has the names of the parts. -/
theorem filterMap_identified {α : Type} {f : Meaning → Option α} {P : α → Prop} (h : ∀ m ∈ parts, m.Identified)
    (hf : ∀ m a, m.Identified → f m = some a → P a) : ∀ a ∈ parts.filterMap f, P a := by
  intro a ha
  obtain ⟨m, hm, ha⟩ := List.mem_filterMap.mp ha
  exact hf m a (h m hm) ha

theorem decls_identified (h : ∀ m ∈ parts, m.Identified) : IdentifiedAll (parts.filterMap decl?) := by
  refine identifiedAll_iff.mpr (filterMap_identified h fun m d hm hd => ?_)
  cases m with
  | decl d' =>
    cases hd
    exact hm
  | _ => cases hd

theorem fieldDecls_identified (h : ∀ m ∈ parts, m.Identified) : ∀ f ∈ parts.filterMap fieldDecl?, Identifier f.name := by
  refine filterMap_identified h fun m f hm hf => ?_
  unfold fieldDecl? at hf
  split at hf
  next =>
    cases hf
    exact hm
  next => cases hf

theorem members_identified (h : ∀ m ∈ parts, m.Identified) : ∀ f ∈ parts.filterMap member?, Identifier f.name := by
  refine filterMap_identified h fun m f hm hf => ?_
  cases m with
  | member f' =>
    cases hf
    exact hm
  | _ => cases hf

theorem inner_identified (h : ∀ m ∈ parts, m.Identified) : (inner parts).Identified := by
  unfold inner
  cases hf : parts.find? _ with
  | none => trivial
  | some m => exact h m (List.mem_of_find?_eq_some hf)

end Meaning

/-! ## Constructs -/

/-- How many identifiers a construct takes its name from: as many as its productions have. -/
def Rule.idents : Rule → Nat
  | .message | .field | .oneofField | .oneof | .enum | .enumValue | .service | .rpc => 1
  -- The first identifier is the type of the keys.
  | .mapField => 2
  | _ => 0

/-- The first construct among some symbols. -/
def firstRule? (ss : List Symbol) : Option Nat :=
  ss.findSome? fun
    | .nonterminal n => some n
    | .terminal _ => none

/-- The productions of a construct with a name have the identifiers for it, and that of a package has a dotted name. -/
theorem productions_named : (grammar.productions.all fun p => Rule.all.all fun rule =>
    rule.index != p.lhs || decide (rule.idents ≤ p.rhs.count (.terminal Terminal.ident.index)) &&
      (rule != .packageDecl || firstRule? p.rhs == some Rule.fullIdent.index)) = true := by
  decide +kernel

theorem Rule.idents_le {p : Production} (hp : p ∈ grammar.productions) {rule : Rule} (hrule : rule.index = p.lhs) :
    rule.idents ≤ p.rhs.count (.terminal Terminal.ident.index) ∧
      (rule = .packageDecl → firstRule? p.rhs = some Rule.fullIdent.index) := by
  have hnamed := List.all_eq_true.mp (List.all_eq_true.mp productions_named p hp) rule rule.mem_all
  simpa [hrule, imp_iff_not_or] using hnamed

namespace Meaning

variable {parts : List Meaning}

/-- A construct has the names of its parts, and its own name from its identifiers. -/
theorem ofParts_identified [CharacterNames] {rule : Rule} {line : Nat} {m : Meaning} (h : ∀ m ∈ parts, m.Identified)
    (hidents : rule.idents ≤ (identTexts parts).length) (hpackage : rule = .packageDecl → Dotted (firstName parts))
    (hm : ofParts rule line parts = .ok m) : m.Identified := by
  cases rule
  case file =>
    cases hm
    exact decls_identified h
  case packageDecl =>
    cases hm
    exact hpackage rfl
  case message =>
    cases hm
    exact ⟨firstText_identifier h hidents, decls_identified h⟩
  case field | oneofField =>
    obtain ⟨tag, -, rfl⟩ := map_ok_iff.mp hm
    exact firstText_identifier h hidents
  case mapField =>
    obtain ⟨tag, -, rfl⟩ := map_ok_iff.mp hm
    have hall := identTexts_identifier h
    show Identifier (((identTexts parts).drop 1).headD "")
    rcases htexts : identTexts parts with _ | ⟨key, _ | ⟨second, rest⟩⟩
    · rw [htexts] at hidents
      cases hidents
    · rw [htexts] at hidents
      exact absurd hidents (by simp [Rule.idents])
    · exact hall second (by rw [htexts]; simp)
  case oneof =>
    cases hm
    exact ⟨firstText_identifier h hidents, members_identified h⟩
  case enum =>
    cases hm
    refine ⟨firstText_identifier h hidents, filterMap_identified h fun m v hm hv => ?_⟩
    split at hv
    · cases hv
      exact hm
    · cases hv
  case enumValue | rpc =>
    cases hm
    exact firstText_identifier h hidents
  case service =>
    cases hm
    refine ⟨firstText_identifier h hidents, filterMap_identified h fun m r hm hr => ?_⟩
    split at hr
    · cases hr
      exact hm
    · cases hr
  case extend =>
    cases hm
    exact fieldDecls_identified h
  case statement | messageItem | oneofItem | enumItem | serviceItem | extendItem | aggregateValue =>
    cases hm
    exact inner_identified h
  case constant =>
    have hi := inner_identified h
    simp only [ofParts] at hm
    split at hm <;> cases hm
    · trivial
    · exact hi
  case syntaxDecl | editionDecl | importDecl | strings =>
    obtain ⟨text, -, rfl⟩ := map_ok_iff.mp hm
    trivial
  case optionPart | aggregateKey | number | label | typeRef | enumNumber =>
    simp only [ofParts] at hm
    split at hm <;> cases hm <;> trivial
  all_goals
    cases hm
    trivial

end Meaning

/-- What the trees of a derivation mean: the names are identifiers, each identifier token gives its text, and a name in
dots comes first where its construct comes first. -/
structure Meant (ss : List Symbol) (ms : List Meaning) : Prop where
  identified : ∀ m ∈ ms, m.Identified
  idents : ss.count (.terminal Terminal.ident.index) ≤ (Meaning.identTexts ms).length
  dotted : firstRule? ss = some Rule.fullIdent.index → Dotted (Meaning.firstName ms)

namespace Meant

variable {ss : List Symbol} {ms parts : List Meaning} {m : Meaning}

theorem nil : Meant [] [] := ⟨List.forall_mem_nil _, Nat.le_refl 0, by rintro ⟨⟩⟩

theorem token {k : Token} (hk : k.Matched) (h : Meant ss ms) :
    Meant (.terminal k.terminal.index :: ss) (.token k :: ms) where
  identified := List.forall_mem_cons.mpr ⟨hk, h.identified⟩
  idents := by
    have hindex : k.terminal.index = Terminal.ident.index → k.terminal = .ident := by cases k.terminal <;> decide
    have hle := h.idents
    rw [List.count_cons]
    by_cases hident : k.terminal = .ident
    · have htexts : Meaning.identTexts (.token k :: ms) = k.text :: Meaning.identTexts ms := by
        simp [Meaning.identTexts, Meaning.text?, hident]
      rw [htexts, List.length_cons, if_pos (by rw [hident]; exact beq_self_eq_true _)]
      omega
    · have htexts : Meaning.identTexts (.token k :: ms) = Meaning.identTexts ms := by
        simp [Meaning.identTexts, Meaning.text?, hident]
      rw [htexts, if_neg fun heq => hident (hindex (Grammar.Symbol.terminal.inj (eq_of_beq heq)))]
      exact hle
  dotted hfirst := h.dotted hfirst

/-- Behind a construct the meanings go on. -/
theorem construct {n : Nat} (hm : m.Identified) (hdotted : n = Rule.fullIdent.index → Dotted (Meaning.firstName (m :: ms)))
    (h : Meant ss ms) : Meant (.nonterminal n :: ss) (m :: ms) where
  identified := List.forall_mem_cons.mpr ⟨hm, h.identified⟩
  idents := by
    rw [List.count_cons_of_ne (by simp)]
    exact Nat.le_trans h.idents ((List.sublist_cons_self m ms).filterMap _).length_le
  dotted hfirst := hdotted (Option.some.inj hfirst)

/-- A helper's meanings are passed on. -/
theorem helper {n : Nat} (hn : n ≠ Rule.fullIdent.index) (hparts : ∀ m ∈ parts, m.Identified) (h : Meant ss ms) :
    Meant (.nonterminal n :: ss) (parts ++ ms) where
  identified := List.forall_mem_append.mpr ⟨hparts, h.identified⟩
  idents := by
    rw [List.count_cons_of_ne (by simp)]
    exact Nat.le_trans h.idents ((List.sublist_append_right parts ms).filterMap _).length_le
  dotted hfirst := absurd (Option.some.inj hfirst) hn

end Meant

/-- **All names in what a derivation means are identifiers.** -/
theorem Derives.meant [CharacterNames] {ss : List Symbol} {ts : List Tree} (h : Derives grammar tables ss ts) :
    (∀ k ∈ tokensAll ts, k.Matched) → ∀ {ms : List Meaning}, meaningAll ts = .ok ms → Meant ss ms := by
  induction h with
  | nil =>
    intro _ ms hms
    cases hms
    exact .nil
  | terminal t text rest ih =>
    intro hk ms hms
    obtain ⟨ms, hrest, rfl⟩ := map_ok_iff.mp hms
    exact .token (hk _ List.mem_cons_self) (ih (fun k hk' => hk k (List.mem_cons_of_mem _ hk')) hrest)
  | @nonterminal p ss us ts hp parts rest ihparts ihrest =>
    intro hk ms hms
    rw [tokensAll_append, tokensAll_reduced, List.forall_mem_append] at hk
    rw [meaningAll_append] at hms
    obtain ⟨ms₁, hms₁, hms⟩ := bind_ok_iff.mp hms
    obtain ⟨ms₂, hms₂, rfl⟩ := map_ok_iff.mp hms
    have hrest := ihrest hk.2 hms₂
    rw [Machine.reduced, tables_rules, List.getElem?_toArray] at hms₁
    cases hrule : Rule.all[p.lhs]? with
    | none =>
      rw [hrule] at hms₁
      refine .helper (fun heq => ?_) (ihparts hk.1 hms₁).identified hrest
      rw [heq, Rule.all_index] at hrule
      cases hrule
    | some rule =>
      rw [hrule] at hms₁
      obtain ⟨m, hm, hms₁⟩ := bind_ok_iff.mp hms₁
      cases hms₁
      obtain ⟨ps, hps, hm⟩ := bind_ok_iff.mp hm
      have hparts := ihparts hk.1 hps
      have hindex := Rule.index_of_all hrule
      obtain ⟨hidents, hpackage⟩ := Rule.idents_le hp hindex
      refine .construct (Meaning.ofParts_identified hparts.identified (hidents.trans hparts.idents)
        (fun hrule => hparts.dotted (hpackage hrule)) hm) (fun hn => ?_) hrest
      rw [hn, Rule.all_index] at hrule
      cases hrule
      cases hm
      exact .join fun s hs => (Meaning.identTexts_identifier hparts.identified s hs).word.dotted

/-- **Declared names are identifiers**, and packages have dotted ones. -/
theorem parse_identified [CharacterNames] {text : String} {decls : List Decl} {comments : List Comment}
    (h : parse text = .ok (decls, comments)) : IdentifiedAll decls := by
  rw [parse_eq] at h
  obtain ⟨forest, passed, hparse⟩ := declarations_eq_ok h
  rw [hparse, declarations_ok] at h
  cases hm : meaningAll forest with
  | error fault =>
    rw [hm] at h
    cases h
  | ok meanings =>
    rw [hm] at h
    obtain ⟨rfl, rfl⟩ := Prod.mk.inj (Except.ok.inj h)
    have hbare : meaningAll (bareTrees forest) = .ok (meanings.map Meaning.bare) := by rw [meaningAll_bare, hm]; rfl
    have hmatched : ∀ k ∈ tokensAll (bareTrees forest), k.Matched := by
      rw [tokensAll_bare]
      exact List.forall_mem_map.mpr (parseTree_matched hparse)
    have hmeant := (parseTree_derives hparse).meant hmatched hbare
    refine identifiedAll_iff.mpr fun d hd => ?_
    obtain ⟨m, hmem, hd⟩ := List.mem_flatMap.mp hd
    have hidentified := Meaning.bare_identified.mp (hmeant.identified _ (List.mem_map_of_mem hmem))
    cases m with
    | file ds => exact identifiedAll_iff.mp hidentified d hd
    | _ => cases hd

end ProtoBind.Source
