/-
Printed declarations are parsed.

The words of each construct are read as what was printed, from names and
constants over fields and options to blocks and messages in messages. So the
parser gives back the declarations that were printed (`parse_printed`).
-/
import ProtoBind.Proofs.Source.Printing

namespace ProtoBind.Source

open Grammar (Expr)
open Meaning (firstText firstName optionsOf joined)

variable {e a b : Expr} {fits : Int → Bool} {name w : String} {k : Int} {v : Value} {options : Options} {t : Terminal}

theorem Reads.ident [CharacterNames] (h : isIdentifier w = true) : Reads (.terminal Terminal.ident.index) [w]
    (.ok [leafOf .ident w]) :=
  .token (clear_ident h)

/-- Parts with a mark between them. -/
theorem Reads.separated [CharacterNames] {α : Type} {f : α → List String} {g : α → List Meaning} {x : α} {xs : List α}
    (hmark : t.spelling? = some w) (h : ∀ y ∈ x :: xs, Reads e (f y) (.ok (g y))) :
    Reads (.seq e (.many (.seq (.terminal t.index) e))) (separated w ((x :: xs).map f))
      (.ok (g x ++ xs.flatMap fun y => leafOf t w :: g y)) := by
  have hrest : Reads (.many (.seq (.terminal t.index) e)) (xs.flatMap fun y => w :: f y)
      (.ok (xs.flatMap fun y => leafOf t w :: g y)) :=
    manyOf fun y hy => (spelled t w hmark).seq (h y (List.mem_cons_of_mem x hy))
  have hall := (h x List.mem_cons_self).seq hrest
  rwa [← List.flatMap_map] at hall

/-- What the parts between the marks give. -/
theorem filterMap_separated {α β : Type} {F : Meaning → Option β} {f : α → Meaning} {h : α → β} {x : α} {xs : List α}
    (hmark : F (leafOf t w) = none) (hf : ∀ y, F (f y) = some (h y)) :
    ([f x] ++ xs.flatMap fun y => leafOf t w :: [f y]).filterMap F = (x :: xs).map h := by
  induction xs with
  | nil => simp [hf]
  | cons y ys ih =>
    simp only [List.filterMap_cons, hf, List.flatMap_cons, List.cons_append, hmark, List.nil_append,
      List.map_cons, List.cons.injEq, true_and] at ih ⊢
    exact ih

/-! ## Names -/

/-- The identifiers of a name. -/
theorem dotted_parts (h : isDotted name = true) : ∃ part parts, (∀ p ∈ part :: parts, isIdentifier p = true) ∧
    nameWords name = separated "." ((part :: parts).map ([·])) ∧ Text.join "." (part :: parts) = name := by
  rw [isDotted, List.all_eq_true] at h
  cases hsplit : Text.splitOnChar '.' name with
  | nil => exact absurd (List.map_eq_nil_iff.mp hsplit) (splitAtChar_ne_nil '.' name.toList)
  | cons part parts =>
    rw [hsplit] at h
    refine ⟨part, parts, h, ?_, hsplit ▸ join_splitOnChar name⟩
    rw [nameWords, hsplit]
    refine congrArg _ (List.map_congr_left fun p hp => ?_)
    rw [if_neg (by simpa using identifier_ne_empty (h p hp))]

theorem reads_fullIdent [CharacterNames] (h : isDotted name = true) :
    Reads (.rule Rule.fullIdent.index) (nameWords name) (.ok [.name name]) := by
  obtain ⟨part, parts, hparts, hwords, hjoin⟩ := dotted_parts h
  have hbody := Reads.separated (t := .dot) (w := ".") (f := ([·])) (g := fun p => [leafOf .ident p]) rfl
    fun p hp => Reads.ident (hparts p hp)
  rw [hwords]
  refine .construct (r := .fullIdent) hbody (congrArg (Except.ok ∘ Meaning.name) ?_)
  rw [filterMap_separated (f := leafOf .ident) (h := id) rfl fun _ => rfl, List.map_id, hjoin]

theorem reads_typeRef [CharacterNames] (h : isTypeName name = true) :
    Reads (.rule Rule.typeRef.index) (nameWords name) (.ok [.name name]) := by
  rw [isTypeName, Bool.or_eq_true, Bool.and_eq_true, beq_iff_eq] at h
  rcases h with h | ⟨hdot, h⟩
  · exact .construct (r := .typeRef) (reads_fullIdent h).left rfl
  · obtain ⟨rest, hrest⟩ : ∃ rest, name.toList = '.' :: rest := List.head?_eq_some_iff.mp hdot
    rw [hrest, List.tail_cons] at h
    have hname : "." ++ String.ofList rest = name := by
      rw [← String.toList_inj, hrest]
      simp
    have hwords : nameWords name = "." :: nameWords (String.ofList rest) := by
      obtain ⟨part, parts, hsplit⟩ := List.exists_cons_of_ne_nil (splitAtChar_ne_nil '.' rest)
      simp [nameWords, Text.splitOnChar, hrest, Text.splitAtChar, hsplit, separated]
    rw [hwords]
    have hbody := (Reads.spelled .dot "." rfl).seq (reads_fullIdent h)
    refine .construct (r := .typeRef) hbody.right ?_
    show Except.ok (Meaning.name ("." ++ String.ofList rest)) = _
    rw [hname]

theorem reads_optionName [CharacterNames] (h : isDotted name = true) :
    Reads (.rule Rule.optionName.index) (nameWords name) (.ok [.name name]) := by
  obtain ⟨part, parts, hparts, hwords, hjoin⟩ := dotted_parts h
  have hpart : ∀ p ∈ part :: parts, Reads (.rule Rule.optionPart.index) [p] (.ok [.name p]) := fun p hp =>
    .construct (r := .optionPart) (Reads.ident (hparts p hp)).left rfl
  have hbody := Reads.separated (t := .dot) (w := ".") (f := ([·])) (g := fun p => [Meaning.name p]) rfl hpart
  rw [hwords]
  refine .construct (r := .optionName) hbody (congrArg (Except.ok ∘ Meaning.name) ?_)
  rw [filterMap_separated (f := .name) (h := id) rfl fun _ => rfl, List.map_id, hjoin]

/-! ## Constants -/

/-- The tokens of an integer. -/
def intParts (k : Int) : List Meaning :=
  if k < 0 then [leafOf .minus "-", leafOf .int (intText (-k))] else [leafOf .int (intText k)]

theorem intText_eq (hk : 0 ≤ k) : intText k = String.ofList (decimalDigits k.natAbs) := by
  rw [intText, if_neg (Int.not_lt.mpr hk)]

theorem Reads.int [CharacterNames] (hk : 0 ≤ k) : Reads (.terminal Terminal.int.index) [intText k]
    (.ok [leafOf .int (intText k)]) := by
  rw [intText_eq hk]
  exact .token (clear_digits Nat.toDigits_ne_nil fun d => decimal_digit)

theorem reads_int [CharacterNames] (ha : Reads a ["-"] (.ok [leafOf .minus "-"]))
    (hb : ∀ n : Int, 0 ≤ n → Reads b [intText n] (.ok [leafOf .int (intText n)])) :
    Reads (.seq (.opt a) b) (intWords k) (.ok (intParts k)) := by
  unfold intWords intParts
  split
  next hk => exact ha.present.seq (hb (-k) (by omega))
  next hk => exact Reads.absent.seq (hb k (by omega))

theorem joined_intParts (k : Int) : joined (intParts k) = intDigits k := by
  unfold intParts intDigits
  split
  next hk => simp [joined, leafOf, Token.of, intText_eq (show 0 ≤ -k by omega)]
  next hk => simp [joined, leafOf, Token.of, intText_eq (show 0 ≤ k by omega)]

theorem reads_number [CharacterNames] (hk : isShort k = true) :
    Reads (.rule Rule.number.index) (intWords k) (.ok [.value (.int k)]) := by
  have hbody : Reads Rule.number.body (intWords k) (.ok (intParts k)) :=
    (reads_int (Reads.spelled .minus "-" rfl).left fun n hn => (Reads.int hn).left).left
  refine .construct (r := .number) hbody ?_
  rw [Meaning.ofParts, joined_intParts, numberLiteral_digits, if_pos hk]

theorem reads_constant [CharacterNames] (h : isConstant isShort v = true) :
    Reads (.rule Rule.constant.index) (constantWords v) (.ok [.value v]) := by
  cases v with
  | int k => exact .construct (r := .constant) (reads_number h).left rfl
  | ident name => exact .construct (r := .constant) (reads_fullIdent h).left.right.right rfl
  | _ => cases h

/-! ## Options -/

theorem reads_entry [CharacterNames] {entry : String × Value} (hname : isDotted entry.1 = true)
    (hv : isConstant isShort entry.2 = true) :
    Reads (.seq (.rule Rule.optionName.index) (.seq (.terminal Terminal.equal.index) (.rule Rule.constant.index)))
      (entryWords entry) (.ok [.name entry.1, leafOf .equal "=", .value entry.2]) :=
  (reads_optionName hname).seq ((Reads.spelled .equal "=" rfl).seq (reads_constant hv))

/-- The parts that options are. -/
def optionParts (options : Options) : List Meaning := if options.isEmpty then [] else [.options options]

theorem reads_options [CharacterNames] (h : areOptions isShort options = true) :
    Reads (.opt (.rule Rule.fieldOptions.index)) (optionWords options) (.ok (optionParts options)) := by
  rw [areOptions, Bool.and_eq_true, decide_eq_true_eq, List.all_eq_true] at h
  obtain ⟨hnodup, hall⟩ := h
  cases options with
  | nil => exact .absent
  | cons entry entries =>
    have hentry : ∀ x ∈ entry :: entries, Reads (.rule Rule.fieldOption.index) (entryWords x) (.ok [.entry x.1 x.2]) := by
      intro x hx
      have hchecked := hall x hx
      rw [Bool.and_eq_true] at hchecked
      exact .construct (r := .fieldOption) (reads_entry hchecked.1 hchecked.2) rfl
    have hbody := (Reads.spelled .bracketOpen "[" rfl).seq
      ((Reads.separated (t := .comma) (w := ",") rfl hentry).seq (Reads.spelled .bracketClose "]" rfl))
    refine (Reads.construct (r := .fieldOptions) hbody (m := .options (entry :: entries)) ?_).present
    have hentries : ([leafOf .bracketOpen "["] ++ (([Meaning.entry entry.1 entry.2] ++
        entries.flatMap fun x => leafOf .comma "," :: [Meaning.entry x.1 x.2]) ++ [leafOf .bracketClose "]"])).filterMap
          Meaning.entry? = entry :: entries := by
      rw [List.filterMap_append, List.filterMap_append,
        filterMap_separated (f := fun x : String × Value => Meaning.entry x.1 x.2) (h := id) rfl fun _ => rfl, List.map_id]
      exact List.append_nil (entry :: entries)
    refine congrArg (Except.ok ∘ Meaning.options) ?_
    rw [Meaning.optionsOfEntries]
    exact (congrArg _ hentries).trans (Entries.ofList_of_nodup hnodup)

/-! ## Fields -/

/-- The parts of a field from its name on. -/
def tagParts (name : String) (tag : Int) (options : Options) : List Meaning :=
  [leafOf .ident name, leafOf .equal "=", leafOf .int (intText tag)] ++ (optionParts options ++ [leafOf .semicolon ";"])

theorem reads_tagged [CharacterNames] {tag : Int} (hname : isIdentifier name = true) (htag : 0 ≤ tag)
    (hoptions : areOptions isShort options = true) :
    Reads (.seq (.terminal Terminal.ident.index) (.seq (.terminal Terminal.equal.index)
        (.seq (.terminal Terminal.int.index) (.seq (.opt (.rule Rule.fieldOptions.index))
          (.terminal Terminal.semicolon.index)))))
      (tagWords name tag options) (.ok (tagParts name tag options)) := by
  have hbody := (Reads.ident hname).seq ((Reads.spelled .equal "=" rfl).seq ((Reads.int htag).seq
    ((reads_options hoptions).seq (Reads.spelled .semicolon ";" rfl))))
  have hwords : tagWords name tag options = [name] ++ (["="] ++ ([intText tag] ++ (optionWords options ++ [";"]))) := by
    simp [tagWords]
  rw [hwords]
  exact hbody

section

variable {tag : Int} {before : List Meaning}

theorem firstText_tagParts (h : before.findSome? (Meaning.text? .ident) = none) :
    firstText .ident (before ++ tagParts name tag options) = name := by
  rw [firstText, List.findSome?_append, h]
  rfl

/-- No label stands in a field from its name on. -/
theorem label_tagParts : (before ++ tagParts name tag options).findSome? Meaning.label? =
    before.findSome? Meaning.label? := by
  have hnone : (tagParts name tag options).findSome? Meaning.label? = none := by
    cases options <;> rfl
  rw [List.findSome?_append, hnone, Option.or_none]

theorem optionsOf_tagParts (h : before.findSome? Meaning.options? = none) :
    optionsOf (before ++ tagParts name tag options) = options := by
  rw [optionsOf, List.findSome?_append, h]
  cases options <;> rfl

theorem tagOf_tagParts (r : Rule) (h : before.findSome? (Meaning.text? .int) = none) (htag : 0 ≤ tag) :
    Meaning.tagOf r (before ++ tagParts name tag options) =
      if isShort tag then .ok tag else .error ⟨r, .number⟩ := by
  have htext : firstText .int (before ++ tagParts name tag options) = intText tag := by
    rw [firstText, List.findSome?_append, h]
    rfl
  have hdigits : (intText tag).toList = intDigits tag := by
    rw [intText_eq htag, String.toList_ofList, intDigits, if_neg (Int.not_lt.mpr htag)]
  rw [Meaning.tagOf, htext, hdigits, intLiteral_digits]
  cases isShort tag <;> rfl

end

/-- A name, a tag and options that can be printed. -/
theorem isTagged_iff {tag : Int} : isTagged fits name tag options = true ↔
    isIdentifier name = true ∧ 0 ≤ tag ∧ fits tag = true ∧ areOptions fits options = true := by
  simp [isTagged, and_assoc]

theorem reads_label [CharacterNames] (l : Option Label) : Reads (.opt (.rule Rule.label.index))
    (l.map Label.word).toList (.ok (l.map Meaning.label).toList) := by
  cases l with
  | none => exact .absent
  | some l =>
    cases l with
    | repeated => exact (Reads.construct (r := .label) (Reads.spelled .repeatedWord "repeated" rfl).left rfl).present
    | optional => exact (Reads.construct (r := .label) (Reads.spelled .optionalWord "optional" rfl).left.right rfl).present
    | required => exact (Reads.construct (r := .label) (Reads.spelled .requiredWord "required" rfl).right.right rfl).present

/-- What stands before the name of a field. -/
def FieldDecl.before (d : FieldDecl) : List Meaning := (d.label.map Meaning.label).toList ++ [.name d.typeName]

theorem FieldDecl.before_eq (d : FieldDecl) : d.before.findSome? Meaning.label? = d.label ∧
    firstName (d.before ++ tagParts d.name d.tag d.options) = d.typeName ∧
    d.before.findSome? Meaning.options? = none ∧ ∀ t, d.before.findSome? (Meaning.text? t) = none := by
  rw [before]
  cases d.label <;> exact ⟨rfl, rfl, rfl, fun _ => rfl⟩

theorem FieldDecl.reads_parts [CharacterNames] {d : FieldDecl} (htype : isTypeName d.typeName = true)
    (hname : isIdentifier d.name = true) (htag : 0 ≤ d.tag) (hoptions : areOptions isShort d.options = true) :
    Reads Rule.field.body d.words (.ok (d.before ++ tagParts d.name d.tag d.options)) := by
  rw [words, before, List.append_assoc, List.append_assoc]
  exact (reads_label d.label).seq ((reads_typeRef htype).seq (reads_tagged hname htag hoptions))

/-- The parts of a field mean the field, unless its tag is too long. -/
theorem FieldDecl.ofParts [CharacterNames] {d : FieldDecl} (htag : 0 ≤ d.tag) :
    Meaning.ofParts .field 0 (d.before ++ tagParts d.name d.tag d.options) =
      if isShort d.tag then .ok (.decl (.field d.bare)) else .error ⟨.field, .number⟩ := by
  obtain ⟨hlabel, htypeName, hnoOptions, hnoText⟩ := d.before_eq
  rw [Meaning.ofParts, tagOf_tagParts _ (hnoText _) htag, label_tagParts, hlabel, htypeName,
    firstText_tagParts (hnoText _), optionsOf_tagParts hnoOptions]
  cases isShort d.tag <;> rfl

theorem FieldDecl.reads [CharacterNames] {d : FieldDecl} (h : d.isPrintable isShort = true) :
    Reads (.rule Rule.field.index) d.words (.ok [.decl (.field d.bare)]) := by
  rw [isPrintable, Bool.and_eq_true, isTagged_iff] at h
  obtain ⟨htype, hname, htag, hshort, hoptions⟩ := h
  exact (d.reads_parts htype hname htag hoptions).construct (by rw [FieldDecl.ofParts htag, if_pos hshort])

theorem FieldDecl.reads_member [CharacterNames] {d : FieldDecl} (h : d.isPrintable isShort = true)
    (hlabel : d.label = none) :
    Reads (.rule Rule.oneofField.index) d.words (.ok [.member d.bare]) := by
  rw [isPrintable, Bool.and_eq_true, isTagged_iff] at h
  obtain ⟨htype, hname, htag, hshort, hoptions⟩ := h
  have hbody : Reads Rule.oneofField.body d.words
      (.ok ([.name d.typeName] ++ tagParts d.name d.tag d.options)) := by
    rw [words, hlabel]
    exact (reads_typeRef htype).seq (reads_tagged hname htag hoptions)
  refine hbody.construct ?_
  rw [Meaning.ofParts, tagOf_tagParts _ rfl htag, firstText_tagParts rfl, optionsOf_tagParts rfl, if_pos hshort, bare,
    hlabel]
  rfl

theorem MapDecl.reads [CharacterNames] {d : MapDecl} (h : d.isPrintable isShort = true) :
    Reads (.rule Rule.mapField.index) d.words (.ok [.decl (.map d.bare)]) := by
  rw [isPrintable, Bool.and_eq_true, Bool.and_eq_true, isTagged_iff] at h
  obtain ⟨⟨hkey, htype⟩, hname, htag, hshort, hoptions⟩ := h
  have hbody : Reads Rule.mapField.body d.words (.ok ([leafOf .mapWord "map", leafOf .less "<", leafOf .ident d.keyType,
      leafOf .comma ",", .name d.valueType, leafOf .greater ">"] ++ tagParts d.name d.tag d.options)) := by
    rw [words, List.append_assoc, List.append_assoc]
    exact (Reads.spelled .mapWord "map" rfl).seq ((Reads.spelled .less "<" rfl).seq ((Reads.ident hkey).seq
      ((Reads.spelled .comma "," rfl).seq ((reads_typeRef htype).seq ((Reads.spelled .greater ">" rfl).seq
        (reads_tagged hname htag hoptions))))))
  refine hbody.construct ?_
  rw [Meaning.ofParts, tagOf_tagParts _ rfl htag, optionsOf_tagParts rfl, if_pos hshort]
  cases hd : d.options <;> rw [bare, hd] <;> rfl

/-! ## Blocks -/

/-- The parts of a named block. -/
def blockParts (t : Terminal) (w name : String) (items : List Meaning) : List Meaning :=
  [leafOf t w, leafOf .ident name, leafOf .braceOpen "\x7b"] ++ (items ++ [leafOf .braceClose "\x7d"])

theorem reads_block [CharacterNames] {α : Type} {f : α → List String} {g : α → Meaning} {xs : List α}
    (hw : t.spelling? = some w) (hname : isIdentifier name = true) (h : ∀ x ∈ xs, Reads e (f x) (.ok [g x])) :
    Reads (.seq (.terminal t.index) (.seq (.terminal Terminal.ident.index) (.seq (.terminal Terminal.braceOpen.index)
        (.seq (.many e) (.terminal Terminal.braceClose.index)))))
      (blockWords w name (xs.flatMap f)) (.ok (blockParts t w name (xs.map g))) := by
  rw [blockWords, List.append_assoc]
  exact (Reads.spelled t w hw).seq ((Reads.ident hname).seq ((Reads.spelled .braceOpen "\x7b" rfl).seq
    ((Reads.items h).seq (Reads.spelled .braceClose "\x7d" rfl))))

theorem filterMap_items {α β : Type} {F : Meaning → Option β} {g : α → Meaning} {h : α → β} {xs : List α}
    (hg : ∀ x, F (g x) = some (h x)) : (xs.map g).filterMap F = xs.map h := by
  rw [List.filterMap_map, ← List.filterMap_eq_map]
  exact List.filterMap_congr fun x _ => hg x

/-- What the items of a block give. -/
theorem filterMap_blockParts {α β : Type} {F : Meaning → Option β} {g : α → Meaning} {h : α → β} {xs : List α}
    (hleaf : ∀ t w, F (leafOf t w) = none) (hg : ∀ x, F (g x) = some (h x)) :
    (blockParts t w name (xs.map g)).filterMap F = xs.map h := by
  simp [blockParts, hleaf, filterMap_items hg]

theorem firstText_blockParts {items : List Meaning} (ht : t ≠ .ident) :
    firstText .ident (blockParts t w name items) = name := by
  have hnone : Meaning.text? .ident (leafOf t w) = none := if_neg ht
  rw [firstText, blockParts, List.cons_append, List.findSome?_cons, hnone]
  rfl

theorem OneofDecl.reads [CharacterNames] {d : OneofDecl} (h : d.isPrintable isShort = true) :
    Reads (.rule Rule.oneof.index) d.words (.ok [.decl (.oneof d.bare)]) := by
  rw [isPrintable, Bool.and_eq_true, List.all_eq_true] at h
  have hitem : ∀ f ∈ d.fields, Reads (.rule Rule.oneofItem.index) f.words (.ok [.member f.bare]) := fun f hf => by
    have hfield := h.2 f hf
    rw [Bool.and_eq_true, beq_iff_eq] at hfield
    exact .construct (r := .oneofItem) (f.reads_member hfield.2 hfield.1).left rfl
  refine .construct (r := .oneof) (reads_block (t := .oneofWord) rfl h.1 hitem) ?_
  rw [Meaning.ofParts, firstText_blockParts (by decide), filterMap_blockParts (h := FieldDecl.bare) (fun _ _ => rfl) fun _ => rfl]
  rfl

theorem reads_enumNumber [CharacterNames] (hk : isShort k = true) :
    Reads (.rule Rule.enumNumber.index) (intWords k) (.ok [.number k]) := by
  refine .construct (r := .enumNumber) (reads_int (Reads.spelled .minus "-" rfl) fun n hn => Reads.int hn) ?_
  rw [Meaning.ofParts, joined_intParts, intLiteral_digits, if_pos hk]

theorem EnumDecl.reads [CharacterNames] {d : EnumDecl} (h : d.isPrintable isShort = true) :
    Reads (.rule Rule.enum.index) d.words (.ok [.decl (.enum d.bare)]) := by
  rw [isPrintable, Bool.and_eq_true, List.all_eq_true] at h
  have hitem : ∀ v ∈ d.values, Reads (.rule Rule.enumItem.index) v.words (.ok [.enumValue v.bare]) := fun v hv => by
    have hvalue := h.2 v hv
    rw [Bool.and_eq_true] at hvalue
    have hbody : Reads Rule.enumValue.body v.words
        (.ok [leafOf .ident v.name, leafOf .equal "=", .number v.number, leafOf .semicolon ";"]) := by
      rw [EnumValueDecl.words, List.append_assoc]
      exact (Reads.ident hvalue.1).seq ((Reads.spelled .equal "=" rfl).seq ((reads_enumNumber hvalue.2).seq
        (Reads.absent.seq (Reads.spelled .semicolon ";" rfl))))
    exact .construct (r := .enumItem) (hbody.construct rfl).left rfl
  refine .construct (r := .enum) (reads_block (t := .enumWord) rfl h.1 hitem) ?_
  rw [Meaning.ofParts, firstText_blockParts (by decide),
    filterMap_blockParts (h := EnumValueDecl.bare) (fun _ _ => rfl) fun _ => rfl]
  rfl

/-! ## Services -/

/-- The parts of a type in parentheses. -/
def rpcTypeParts (type : String) (isStream : Bool) : List Meaning :=
  [leafOf .parenOpen "("] ++ ((if isStream then [.stream] else []) ++ [.name type, leafOf .parenClose ")"])

theorem reads_stream [CharacterNames] (isStream : Bool) : Reads (.opt (.rule Rule.stream.index))
    (if isStream then ["stream"] else []) (.ok (if isStream then [.stream] else [])) := by
  cases isStream with
  | false => exact .absent
  | true => exact (Reads.construct (r := .stream) (Reads.spelled .streamWord "stream" rfl) rfl).present

theorem RpcDecl.reads [CharacterNames] {d : RpcDecl} (hname : isIdentifier d.name = true)
    (hrequest : isTypeName d.request = true)
    (hresponse : isTypeName d.response = true) : Reads (.rule Rule.rpc.index) d.words (.ok [.rpc d.bare]) := by
  have hend : Reads (.rule Rule.rpcBody.index) [";"] (.ok [.nothing]) :=
    .construct (r := .rpcBody) (Reads.spelled .semicolon ";" rfl).left rfl
  have hbody : Reads Rule.rpc.body d.words (.ok ([leafOf .rpcWord "rpc", leafOf .ident d.name] ++
      (rpcTypeParts d.request d.requestStream ++ ([leafOf .returnsWord "returns"] ++
        (rpcTypeParts d.response d.responseStream ++ [.nothing]))))) := by
    have hwords : d.words = ["rpc"] ++ ([d.name] ++ (["("] ++ ((if d.requestStream then ["stream"] else []) ++
        (nameWords d.request ++ ([")"] ++ (["returns"] ++ (["("] ++ ((if d.responseStream then ["stream"] else []) ++
          (nameWords d.response ++ ([")"] ++ [";"])))))))))) := by
      simp [words, rpcTypeWords]
    have hparts := (Reads.spelled .rpcWord "rpc" rfl).seq ((Reads.ident hname).seq
      ((Reads.spelled .parenOpen "(" rfl).seq ((reads_stream d.requestStream).seq ((reads_typeRef hrequest).seq
        ((Reads.spelled .parenClose ")" rfl).seq ((Reads.spelled .returnsWord "returns" rfl).seq
          ((Reads.spelled .parenOpen "(" rfl).seq ((reads_stream d.responseStream).seq ((reads_typeRef hresponse).seq
            ((Reads.spelled .parenClose ")" rfl).seq hend))))))))))
    rw [hwords]
    simp only [rpcTypeParts, List.append_assoc, List.cons_append, List.nil_append]
    exact hparts
  refine hbody.construct ?_
  rcases d with ⟨name, request, _ | _, response, _ | _, line⟩ <;> rfl

theorem ServiceDecl.reads [CharacterNames] {d : ServiceDecl} (h : d.isPrintable = true) :
    Reads (.rule Rule.service.index) d.words (.ok [.decl (.service d.bare)]) := by
  rw [isPrintable, Bool.and_eq_true, List.all_eq_true] at h
  have hitem : ∀ r ∈ d.rpcs, Reads (.rule Rule.serviceItem.index) r.words (.ok [.rpc r.bare]) := fun r hr => by
    have hrpc := h.2 r hr
    rw [Bool.and_eq_true, Bool.and_eq_true] at hrpc
    exact .construct (r := .serviceItem) (r.reads hrpc.1.1 hrpc.1.2 hrpc.2).left rfl
  refine .construct (r := .service) (reads_block (t := .serviceWord) rfl h.1 hitem) ?_
  rw [Meaning.ofParts, firstText_blockParts (by decide), filterMap_blockParts (h := RpcDecl.bare) (fun _ _ => rfl) fun _ => rfl]
  rfl

/-! ## Extensions and messages -/

theorem ExtendDecl.reads [CharacterNames] {d : ExtendDecl} (h : d.isPrintable isShort = true) :
    Reads (.rule Rule.extend.index) d.words (.ok [.decl (.extend d.bare)]) := by
  rw [isPrintable, Bool.and_eq_true, List.all_eq_true] at h
  have hitem : ∀ f ∈ d.fields, Reads (.rule Rule.extendItem.index) f.words (.ok [.decl (.field f.bare)]) := fun f hf =>
    .construct (r := .extendItem) (f.reads (h.2 f hf)).left rfl
  have hbody : Reads Rule.extend.body d.words (.ok ([leafOf .extendWord "extend", .name d.extendee,
      leafOf .braceOpen "\x7b"] ++ ((d.fields.map fun f => .decl (.field f.bare)) ++ [leafOf .braceClose "\x7d"]))) := by
    simp only [words, List.append_assoc]
    exact (Reads.spelled .extendWord "extend" rfl).seq ((reads_typeRef h.1).seq
      ((Reads.spelled .braceOpen "\x7b" rfl).seq ((Reads.items hitem).seq (Reads.spelled .braceClose "\x7d" rfl))))
  refine hbody.construct ?_
  have hfields : (d.fields.map fun f => Meaning.decl (.field f.bare)).filterMap Meaning.fieldDecl? =
      d.fields.map FieldDecl.bare := filterMap_items fun _ => rfl
  rw [Meaning.ofParts, List.filterMap_append, List.filterMap_append, hfields]
  exact congrArg (fun fields => Except.ok (Meaning.decl (.extend ⟨d.extendee, fields, 0⟩))) (List.append_nil _)

/-- The construct of a declaration. -/
def Decl.rule : Decl → Rule
  | .dialect _ => .syntaxDecl
  | .edition _ => .editionDecl
  | .package _ => .packageDecl
  | .imports _ => .importDecl
  | .option _ _ => .optionDecl
  | .field _ => .field
  | .map _ => .mapField
  | .oneof _ => .oneof
  | .message _ _ _ => .message
  | .enum _ => .enum
  | .service _ => .service
  | .extend _ => .extend

/-- What can stand in a message is one of its items. -/
theorem Decl.reads_item [CharacterNames] {d : Decl} (h : d.isPrintable isShort true = true)
    (hd : Reads (.rule d.rule.index) d.words (.ok [.decl d.bare])) :
    Reads (.rule Rule.messageItem.index) d.words (.ok [.decl d.bare]) := by
  suffices hbody : Reads Rule.messageItem.body d.words (.ok [.decl d.bare]) from hbody.construct rfl
  cases d with
  | dialect | edition | package | imports | service => cases h
  | field => exact hd.left
  | map => exact hd.left.right
  | oneof => exact hd.left.right.right
  | message => exact hd.left.right.right.right
  | enum => exact hd.left.right.right.right.right
  | extend => exact hd.left.right.right.right.right.right
  | option => exact hd.left.right.right.right.right.right.right

/-- What can stand at the top of a file is a statement. -/
theorem Decl.reads_statement [CharacterNames] {d : Decl} (h : d.isPrintable isShort false = true)
    (hd : Reads (.rule d.rule.index) d.words (.ok [.decl d.bare])) :
    Reads (.rule Rule.statement.index) d.words (.ok [.decl d.bare]) := by
  suffices hbody : Reads Rule.statement.body d.words (.ok [.decl d.bare]) from hbody.construct rfl
  cases d with
  | field | map | oneof => cases h
  | dialect => exact hd.left
  | edition => exact hd.left.right
  | package => exact hd.left.right.right
  | imports => exact hd.left.right.right.right
  | option => exact hd.left.right.right.right.right
  | message => exact hd.left.right.right.right.right.right
  | enum => exact hd.left.right.right.right.right.right.right
  | service => exact hd.left.right.right.right.right.right.right.right
  | extend => exact hd.left.right.right.right.right.right.right.right.right

theorem Reads.quoted [CharacterNames] (h : w.toList.all isPlainChar = true) : Reads (.terminal Terminal.string.index)
    [quotedText w] (.ok [leafOf .string (quotedText w)]) :=
  .token (clear_quoted (List.all_eq_true.mp h))

theorem unquote_quoted [CharacterNames] (r : Rule) (h : w.toList.all isPlainChar = true) :
    Meaning.unquote r (quotedText w) = .ok w := by
  rw [Meaning.unquote, stringLiteral_quoted (List.all_eq_true.mp h), Except.mapError]

mutual

/-- **The words of a declaration are read as it**, without lines. -/
theorem Decl.reads [CharacterNames] {nested : Bool} : ∀ d : Decl, d.isPrintable isShort nested = true →
    Reads (.rule d.rule.index) d.words (.ok [.decl d.bare])
  | .dialect value, h => by
    rw [isPrintable, Bool.and_eq_true] at h
    have hbody := (Reads.spelled .syntaxWord "syntax" rfl).seq ((Reads.spelled .equal "=" rfl).seq
      ((Reads.quoted h.2).seq (Reads.spelled .semicolon ";" rfl)))
    refine .construct (r := .syntaxDecl) hbody ?_
    exact congrArg (· >>= fun s => pure (Meaning.decl (.dialect s))) (unquote_quoted .syntaxDecl h.2)
  | .edition value, h => by
    rw [isPrintable, Bool.and_eq_true] at h
    have hbody := (Reads.spelled .editionWord "edition" rfl).seq ((Reads.spelled .equal "=" rfl).seq
      ((Reads.quoted h.2).seq (Reads.spelled .semicolon ";" rfl)))
    refine .construct (r := .editionDecl) hbody ?_
    exact congrArg (· >>= fun s => pure (Meaning.decl (.edition s))) (unquote_quoted .editionDecl h.2)
  | .package name, h => by
    rw [isPrintable, Bool.and_eq_true] at h
    have hbody := (Reads.spelled .packageWord "package" rfl).seq
      ((reads_fullIdent h.2).seq (Reads.spelled .semicolon ";" rfl))
    rw [words, List.append_assoc]
    exact .construct (r := .packageDecl) hbody rfl
  | .imports file, h => by
    rw [isPrintable, Bool.and_eq_true] at h
    have hbody := (Reads.spelled .importWord "import" rfl).seq (Reads.absent (a := .rule Rule.importKind.index) |>.seq
      ((Reads.quoted h.2).seq (Reads.spelled .semicolon ";" rfl)))
    refine .construct (r := .importDecl) hbody ?_
    exact congrArg (· >>= fun s => pure (Meaning.decl (.imports s))) (unquote_quoted .importDecl h.2)
  | .option name value, h => by
    rw [isPrintable, Bool.and_eq_true] at h
    have hbody := (Reads.spelled .optionWord "option" rfl).seq
      ((reads_optionName h.1).seq ((Reads.spelled .equal "=" rfl).seq
       ((reads_constant h.2).seq (Reads.spelled .semicolon ";" rfl))))
    rw [words, entryWords]
    simp only [List.append_assoc]
    exact .construct (r := .optionDecl) hbody rfl
  | .field d, h => by
    rw [isPrintable, Bool.and_eq_true] at h
    exact d.reads h.2
  | .map d, h => by
    rw [isPrintable, Bool.and_eq_true] at h
    exact d.reads h.2
  | .oneof d, h => by
    rw [isPrintable, Bool.and_eq_true] at h
    exact d.reads h.2
  | .message name items line, h => by
    rw [isPrintable, Bool.and_eq_true] at h
    rw [words, declWords_eq]
    refine .construct (r := .message) (reads_block (t := .messageWord) rfl h.1 (Decl.reads_items items h.2)) ?_
    rw [Meaning.ofParts, firstText_blockParts (by decide),
      filterMap_blockParts (h := Decl.bare) (fun _ _ => rfl) fun _ => rfl, bare, bareDecls_eq]
  | .enum d, h => d.reads h
  | .service d, h => by
    rw [isPrintable, Bool.and_eq_true] at h
    exact d.reads h.2
  | .extend d, h => d.reads h

theorem Decl.reads_items [CharacterNames] : ∀ ds : List Decl, arePrintable isShort ds = true →
    ∀ d ∈ ds, Reads (.rule Rule.messageItem.index) d.words (.ok [.decl d.bare])
  | [], _ => nofun
  | d :: ds, h => by
    rw [arePrintable, Bool.and_eq_true] at h
    rintro d' (_ | ⟨_, hd'⟩)
    · exact d.reads_item h.1 (d.reads h.1)
    · exact Decl.reads_items ds h.2 d' hd'

end

/-! ## Files -/

/-- The words of declarations that can stand at the top of a file. -/
theorem reads_file [CharacterNames] {ds : List Decl} (h : ∀ d ∈ ds, d.isPrintable isShort false = true) :
    Reads Rule.file.body (ds.flatMap Decl.words) (.ok (ds.map fun d => .decl d.bare)) :=
  Reads.items fun d hd => d.reads_statement (h d hd) (d.reads (h d hd))

/-- **Printed declarations are parsed**, up to lines, when their integers have few enough digits to be read. -/
theorem parse_printed [CharacterNames] (ds : List Decl) (h : ∀ d ∈ ds, d.isPrintable isShort false = true) :
    (parse (printed ds)).map (·.1.map Decl.bare) = .ok (ds.map Decl.bare) := by
  have hdecls : (ds.map fun d => Meaning.decl d.bare).filterMap Meaning.decl? = ds.map Decl.bare :=
    filterMap_items fun _ => rfl
  rw [printed, parse_of_reads (reads_file h)]
  exact congrArg Except.ok hdecls

/-- A file with one of each construct. -/
def eachConstruct : List Decl :=
  [.dialect "proto3", .package "a.b", .imports "c.proto",
    .message "M" [.field ⟨some .repeated, ".a.b.M", "ms", 1, [("packed", .ident "true")], 0⟩,
      .map ⟨"string", "int32", "counts", 2, [], 0⟩, .oneof ⟨"choice", [⟨none, "int32", "left", 3, [], 0⟩], 0⟩,
      .message "Inner" [.extend ⟨"M", [⟨none, "E", "e", 100, [("default", .int (-1))], 0⟩], 0⟩] 0] 0,
    .enum ⟨"E", [⟨"zero", 0, 0⟩, ⟨"below", -1, 0⟩], 0⟩,
    .service ⟨"S", [⟨"Call", "M", true, ".a.b.M", false, 0⟩], 0⟩,
    .extend ⟨"M", [⟨some .optional, "M.Inner", "inner", 101, [], 0⟩], 0⟩]

theorem parse_printed_eachConstruct : (∀ d ∈ eachConstruct, d.isPrintable isShort false = true) ∧
    (parse (printed eachConstruct)).map (·.1.map Decl.bare) = .ok (eachConstruct.map Decl.bare) := by
  have hprintable : ∀ d ∈ eachConstruct, d.isPrintable isShort false = true := by decide
  exact ⟨hprintable, parse_printed eachConstruct hprintable⟩

/-- A message with a field whose tag has more digits than are read is refused. -/
theorem parse_printed_of_long [CharacterNames] {d : FieldDecl} (hname : isIdentifier name = true)
    (htype : isTypeName d.typeName = true)
    (hfield : isIdentifier d.name = true) (htag : 0 ≤ d.tag) (hlong : isShort d.tag = false)
    (hoptions : areOptions isShort d.options = true) :
    parse (printed [.message name [.field d] 0]) = .error (.literal ⟨.field, .number⟩) := by
  have hrefused : Reads (.rule Rule.field.index) d.words (.error ⟨.field, .number⟩) := by
    have hparts : Meaning.ofParts .field 0 (d.before ++ tagParts d.name d.tag d.options) = .error ⟨.field, .number⟩ := by
      rw [FieldDecl.ofParts htag, hlong]
      rfl
    have hrule := (d.reads_parts htype hfield htag hoptions).rule
    rwa [show (Except.ok (d.before ++ tagParts d.name d.tag d.options) >>= fun parts =>
      (Meaning.ofParts .field 0 parts).map ([·])) = (Meaning.ofParts .field 0 _).map ([·]) from rfl, hparts] at hrule
  -- The fault passes through the item, the message and the statement.
  have hitem : Reads (.rule Rule.messageItem.index) d.words (.error ⟨.field, .number⟩) :=
    hrefused.left.rule (r := .messageItem)
  have hbody : Reads Rule.message.body (blockWords "message" name d.words) (.error ⟨.field, .number⟩) := by
    rw [blockWords, List.append_assoc]
    exact (Reads.spelled .messageWord "message" rfl).seq ((Reads.ident hname).seq
      ((Reads.spelled .braceOpen "\x7b" rfl).seq (hitem.manyOne.seq_error (Reads.spelled .braceClose "\x7d" rfl))))
  have hstatement : Reads (.rule Rule.statement.index) (blockWords "message" name d.words) (.error ⟨.field, .number⟩) :=
    (hbody.rule (r := .message)).left.right.right.right.right.right.rule (r := .statement)
  have hparsed := parse_of_reads hstatement.manyOne
  have hwords : [Decl.message name [.field d] 0].flatMap Decl.words = blockWords "message" name d.words := by
    simp [Decl.words, declWords]
  rw [printed, hwords]
  cases hparse : parse (Text.join " " (blockWords "message" name d.words)) with
  | ok result =>
    rw [hparse] at hparsed
    cases hparsed
  | error fault =>
    rw [hparse] at hparsed
    exact congrArg Except.error (Except.error.inj hparsed)

theorem isShort_iff : isShort k = true ↔ k.natAbs < 10 ^ Text.maxIntegerDigits := by
  rw [isShort, decide_eq_true_eq]
  exact Nat.length_toDigits_le_iff (by decide) (by decide)

/-- A message with one field of a tag. -/
def tagged (tag : Int) : List Decl := [.message "M" [.field ⟨none, "int32", "a", tag, [], 0⟩] 0]

theorem tagged_names : isIdentifier "M" = true ∧ isTypeName "int32" = true ∧ isIdentifier "a" = true ∧
    areOptions isShort [] = true := by
  decide

theorem tagged_isPrintable {tag : Int} (htag : 0 ≤ tag) (hfits : fits tag = true) :
    ∀ d ∈ tagged tag, d.isPrintable fits false = true := by
  intro d hd
  rw [List.mem_singleton.mp hd]
  simp [Decl.isPrintable, arePrintable, FieldDecl.isPrintable, isTagged, areOptions, tagged_names, htag, hfits]

/-- Declarations are not read back whatever integers they hold: a tag of 4301 digits is refused. -/
theorem parse_printed_false : ¬ ∀ ds : List Decl, (∀ d ∈ ds, d.isPrintable (fun _ => true) false = true) →
    (parse (printed ds)).map (·.1.map Decl.bare) = .ok (ds.map Decl.bare) := by
  intro h
  obtain ⟨tag, htag, hlong⟩ : ∃ tag : Int, 0 ≤ tag ∧ isShort tag = false := by
    refine ⟨((10 ^ Text.maxIntegerDigits : Nat) : Int), Int.natCast_nonneg _, ?_⟩
    rw [Bool.eq_false_iff, Ne, isShort_iff, Int.natAbs_natCast]
    exact Nat.lt_irrefl _
  obtain ⟨hname, htype, hfield, hoptions⟩ := tagged_names
  have hread := h (tagged tag) (tagged_isPrintable htag rfl)
  rw [tagged, parse_printed_of_long (d := ⟨none, "int32", "a", tag, [], 0⟩) hname htype hfield htag hlong hoptions] at hread
  cases hread

end ProtoBind.Source
